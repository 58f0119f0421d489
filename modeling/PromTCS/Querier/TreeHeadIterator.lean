import PromTCS.Querier.MergeSeriesIterator
import PromTCS.Querier.SlabArrayIterator

/-!
# TreeHeadIterator

The iterator over the chunk that is in memory decodes one sample at a time. The first call, of
`next` or of `seek`, goes to the first sample of the range; `end_` is set behind the range and at
the end of the chunk.
-/

namespace PromTCS

open List

open Sample (time)

structure TreeHeadIterator where
  minTime : ℤ
  maxTime : ℤ
  iter : XORIterator
  init : Bool
  ended : Bool

namespace TreeHeadIterator

def ofChunk (junk : ℕ → Byte) (content : List Byte) (mint maxt : ℤ) : TreeHeadIterator where
  minTime := mint
  maxTime := maxt
  iter := XORChunk.readIterator (content.drop valueHeaderSize) junk
  init := false
  ended := false

/-- The loops of `seek` and `next`: on to the first sample that is not before `t`, and whether
the end or a sample behind the range comes before it. -/
def advance (t maxTime : ℤ) : ℕ → XORIterator → Bool × XORIterator
  | 0, iter => (true, iter)
  | fuel + 1, iter =>
    match iter.next with
    | (false, iter) => (true, iter)
    | (true, iter) =>
      if maxTime < iter.at'.1.toInt then (true, iter)
      else if t ≤ iter.at'.1.toInt then (false, iter)
      else advance t maxTime fuel iter

/-- The loop over the rest of the chunk, which has at most `num_total_` samples. -/
def goTo (it : TreeHeadIterator) (t : ℤ) : TreeHeadIterator :=
  let (ended, iter) := advance t it.maxTime (it.iter.numTotal + 1) it.iter
  { it with iter := iter, init := true, ended := ended }

def seek (t : ℤ) (it : TreeHeadIterator) : Bool × TreeHeadIterator :=
  if it.maxTime < t then (false, it)
  else
    let it := if it.init then it else it.goTo it.minTime
    if it.ended then (false, it) else (!(it.goTo t).ended, it.goTo t)

def at' (it : TreeHeadIterator) : Sample :=
  if it.ended then (0#64, 0#64) else it.iter.at'

def next (it : TreeHeadIterator) : Bool × TreeHeadIterator :=
  if it.init then
    if it.ended then (false, it)
    else
      let (ok, iter) := it.iter.next
      let ended := !ok || decide (it.maxTime < iter.at'.1.toInt)
      (!ended, { it with iter := iter, ended := ended })
  else (!(it.goTo it.minTime).ended, it.goTo it.minTime)

def interface : SeriesIteratorInterface TreeHeadIterator where
  seek := seek
  at' := at'
  next := next

end TreeHeadIterator

/-! ## The samples of a chunk -/

namespace XORIterator

def Yields (it : XORIterator) (l : List Sample) : Prop :=
  Iteration.Yields (Iteration.taken next) at' it l ∧ l.length ≤ it.numTotal

variable {it : XORIterator}

theorem yields_of_collect {fuel : ℕ} {it' : XORIterator} {l : List Sample}
    (h : collect fuel it = some (l, it')) : Iteration.Yields (Iteration.taken next) at' it l := by
  induction fuel generalizing it l with
  | zero => cases h
  | succ fuel ih =>
    rw [collect] at h
    cases hnext : it.next with
    | mk ok it₁ =>
      rw [hnext] at h
      cases ok with
      | false =>
        obtain ⟨rfl, -⟩ := Prod.mk.inj (Option.some.inj h)
        change Iteration.taken next it = none
        rw [Iteration.taken, hnext]
        rfl
      | true =>
        obtain ⟨⟨l₁, it₂⟩, hrest, hl⟩ := Option.map_eq_some_iff.1 h
        obtain ⟨rfl, rfl⟩ := Prod.mk.inj hl
        refine ⟨it₁, ?_, rfl, ih hrest⟩
        rw [Iteration.taken, hnext]
        rfl

theorem yields_decodeChunk (junk : ℕ → Byte) (content : List Byte) :
    (XORChunk.readIterator (content.drop valueHeaderSize) junk).Yields
      (decodeChunk junk content) := by
  unfold decodeChunk drain
  generalize hit : XORChunk.readIterator (content.drop valueHeaderSize) junk = it
  have hzero : it.numRead = 0 := by
    rw [← hit]
    rfl
  obtain ⟨l, it', hcollect, hlen⟩ := @exists_collect_eq it (it.numTotal - it.numRead + 1)
    (by omega) (Nat.lt_succ_self _)
  rw [hcollect]
  exact ⟨yields_of_collect hcollect, hlen.trans (Nat.sub_le _ _)⟩

theorem Yields.next_nil (h : it.Yields []) : it.next.1 = false := by
  have htaken : Iteration.taken next it = none := h.1
  unfold Iteration.taken at htaken
  split_ifs at htaken with hok
  simpa using hok

theorem Yields.next_cons {x : Sample} {l : List Sample} (h : it.Yields (x :: l)) :
    ∃ it', it.next = (true, it') ∧ it'.at' = x ∧ it'.Yields l ∧ it'.numTotal = it.numTotal := by
  obtain ⟨⟨it', htaken, hx, hl⟩, hlen⟩ := h
  unfold Iteration.taken at htaken
  split_ifs at htaken with hok
  obtain rfl := Option.some.inj htaken
  have htotal := (counts_next it hok).2
  refine ⟨it.next.2, Prod.ext hok rfl, hx, ⟨hl, ?_⟩, htotal⟩
  rw [htotal]
  exact (Nat.le_succ _).trans hlen

end XORIterator

namespace TreeHeadIterator

variable {t maxTime : ℤ}

def Stops (maxTime : ℤ) (r : Bool × XORIterator) : List Sample → Prop
  | [] => r.1 = true
  | x :: l => (maxTime < time x ∧ r.1 = true) ∨
      (time x ≤ maxTime ∧ r.1 = false ∧ r.2.at' = x ∧ r.2.Yields l)

variable {l : List Sample}

theorem advance_stops {iter : XORIterator} (h : iter.Yields l)
    (hasc : l.Pairwise fun x y => time x < time y) {fuel : ℕ} (hfuel : l.length < fuel) :
    Stops maxTime (advance t maxTime fuel iter) (l.dropWhile fun x => decide (time x < t)) := by
  induction l generalizing fuel iter with
  | nil =>
    obtain ⟨fuel, rfl⟩ := Nat.exists_eq_succ_of_ne_zero hfuel.ne'
    have hnext := h.next_nil
    rw [advance]
    cases hit : iter.next with
    | mk ok iter' =>
      rw [hit] at hnext
      obtain rfl : ok = false := hnext
      exact rfl
  | cons x l ih =>
    obtain ⟨fuel, rfl⟩ := Nat.exists_eq_succ_of_ne_zero (Nat.zero_lt_of_lt hfuel).ne'
    obtain ⟨iter', hnext, hx, hl, -⟩ := h.next_cons
    obtain ⟨hlt, hasc⟩ := pairwise_cons.1 hasc
    rw [advance, hnext]
    dsimp only
    rw [show iter'.at'.1.toInt = time x by rw [hx]; rfl]
    split_ifs with hmax ht
    · by_cases htx : time x < t
      · rw [dropWhile_cons_of_pos (by simpa using htx)]
        -- What comes after a sample behind the range is behind the range.
        cases hdrop : l.dropWhile fun x => decide (time x < t) with
        | nil => exact rfl
        | cons y l' =>
          have hy : y ∈ l := (dropWhile_sublist _).subset (hdrop ▸ mem_cons_self)
          exact Or.inl ⟨hmax.trans (hlt y hy), rfl⟩
      · rw [dropWhile_cons_of_neg (by simpa using htx)]
        exact Or.inl ⟨hmax, rfl⟩
    · rw [dropWhile_cons_of_neg (by simpa using ht)]
      exact Or.inr ⟨not_lt.1 hmax, rfl, hx, hl⟩
    · rw [dropWhile_cons_of_pos (by simpa using ht)]
      exact ih hl hasc (Nat.lt_of_succ_lt_succ hfuel)

/-- The iterator shows `x`, and the chunk goes on with `rest`. -/
structure Shown (it : TreeHeadIterator) (x : Sample) (rest : List Sample) : Prop where
  init : it.init = true
  ended : it.ended = false
  at_eq : it.iter.at' = x
  yields : it.iter.Yields rest
  ascending : (x :: rest).Pairwise fun x y => time x < time y
  le_max : time x ≤ it.maxTime

/-- After a first call the iterator has `l` left, the current sample in front. -/
def Left (it : TreeHeadIterator) (l : List Sample) : Prop :=
  (l = [] ∧ it.init = true ∧ it.ended = true) ∨
    ∃ x rest, it.Shown x rest ∧ l = x :: rest.filter fun y => decide (time y ≤ it.maxTime)

theorem filter_le_of_lt {x : Sample} (hasc : (x :: l).Pairwise fun x y => time x < time y)
    (hx : maxTime < time x) : (x :: l).filter (fun y => decide (time y ≤ maxTime)) = [] := by
  refine filter_eq_nil_iff.2 fun y hy hle => ?_
  have hle := of_decide_eq_true hle
  rcases mem_cons.1 hy with rfl | hy
  · omega
  · have hlt := (pairwise_cons.1 hasc).1 y hy
    omega

theorem filter_eq_dropWhile (hasc : l.Pairwise fun x y => time x < time y) :
    l.filter (fun y => decide (t ≤ time y ∧ time y ≤ maxTime)) =
      (l.dropWhile fun x => decide (time x < t)).filter fun y => decide (time y ≤ maxTime) := by
  rw [RangeScan.dropWhile_eq_filter hasc
    (fun hxy hy => decide_eq_true (hxy.trans (of_decide_eq_true hy))), filter_filter]
  refine filter_congr fun y _ => ?_
  rw [Bool.decide_and, Bool.and_comm, ← decide_not]
  simp only [not_lt]

theorem left_goTo {it : TreeHeadIterator} (h : it.iter.Yields l)
    (hasc : l.Pairwise fun x y => time x < time y) (t : ℤ) :
    (it.goTo t).Left (l.filter fun y => decide (t ≤ time y ∧ time y ≤ it.maxTime)) := by
  have hstops := @advance_stops t it.maxTime l it.iter h hasc (it.iter.numTotal + 1)
    (Nat.lt_succ_of_le h.2)
  have hasc' := hasc.sublist (dropWhile_sublist fun x => decide (time x < t))
  rw [filter_eq_dropWhile hasc]
  cases hdrop : l.dropWhile fun x => decide (time x < t) with
  | nil =>
    rw [hdrop] at hstops
    exact Or.inl ⟨rfl, rfl, hstops⟩
  | cons x rest =>
    rw [hdrop] at hstops hasc'
    rcases hstops with ⟨hmax, hend⟩ | ⟨hmax, hend, hat, hrest⟩
    · exact Or.inl ⟨filter_le_of_lt hasc' hmax, rfl, hend⟩
    · refine Or.inr ⟨x, rest, ⟨rfl, hend, hat, hrest, hasc', hmax⟩, ?_⟩
      exact filter_cons_of_pos (decide_eq_true hmax)

theorem Left.next {it : TreeHeadIterator} (h : it.Left l) :
    it.next.1 = !l.tail.isEmpty ∧ it.next.2.Left l.tail := by
  rcases h with ⟨rfl, hinit, hend⟩ | ⟨x, rest, hshown, rfl⟩
  · rw [TreeHeadIterator.next, if_pos hinit, if_pos hend]
    exact ⟨rfl, Or.inl ⟨rfl, hinit, hend⟩⟩
  · rw [TreeHeadIterator.next, if_pos hshown.init, if_neg (by simp [hshown.ended]), tail_cons]
    have hasc := (pairwise_cons.1 hshown.ascending).2
    have hyields := hshown.yields
    cases rest with
    | nil =>
      have hnext := hyields.next_nil
      cases hit : it.iter.next with
      | mk ok iter =>
        rw [hit] at hnext
        obtain rfl : ok = false := hnext
        exact ⟨rfl, Or.inl ⟨rfl, hshown.init, rfl⟩⟩
    | cons y rest =>
      obtain ⟨iter, hnext, hy, hrest, -⟩ := hyields.next_cons
      rw [hnext]
      dsimp only
      rw [Bool.not_true, Bool.false_or, show iter.at'.1.toInt = time y by rw [hy]; rfl]
      by_cases hmax : it.maxTime < time y
      · rw [filter_le_of_lt hasc hmax, decide_eq_true hmax]
        exact ⟨rfl, Or.inl ⟨rfl, hshown.init, rfl⟩⟩
      · rw [filter_cons_of_pos (by simpa using hmax), decide_eq_false hmax]
        exact ⟨rfl, Or.inr ⟨y, rest, ⟨hshown.init, rfl, hy, hrest, hasc, not_lt.1 hmax⟩, rfl⟩⟩

end TreeHeadIterator

end PromTCS
