import PromTCS.Chunk.XORIterator
import PromTCS.Lib.Iteration
import PromTCS.Lib.LastUnion

/-!
# MergeSeriesIterator

The samples of a series come from several iterators, older data first. The merge shows the sample
with the smallest time among the current ones; where several iterators have that time it shows the
value of the last of them, and the next call moves all of them. Their positions are kept in `id_`,
and an iterator that has no further sample is erased from the vector while the loop over `id_` is
running, so the positions behind it are corrected by the number of iterators erased so far.
-/

namespace PromTCS

open List Iteration

open Sample (time)

/-- `SeriesIteratorInterface`; `seek` and `next` return whether there is a sample, and leave the
iterator in another state. -/
structure SeriesIteratorInterface (σ : Type*) where
  seek : ℤ → σ → Bool × σ
  at' : σ → Sample
  next : σ → Bool × σ

namespace SeriesIteratorInterface

variable {σ : Type*} (I : SeriesIteratorInterface σ)

/-- Calls of `next` and `at` up to the first `next` that fails show these samples. -/
def Yields (s : σ) (l : List Sample) : Prop :=
  Iteration.Yields (taken I.next) I.at' s l

/-- The iterator after `k` calls of `next`. -/
def after (k : ℕ) (s : σ) : σ := (fun s => (I.next s).2)^[k] s

end SeriesIteratorInterface

structure MergeSeriesIterator (σ : Type*) where
  iters : List σ
  id : List ℕ
  t : Word
  v : Word
  init : Bool

namespace MergeSeriesIterator

section

variable {σ : Type*} (I : SeriesIteratorInterface σ)

/-- The constructor; `t_` and `v_` are not set before the first call. -/
def ofIters (iters : List σ) : MergeSeriesIterator σ where
  iters := iters
  id := []
  t := 0
  v := 0
  init := false

/-- `_next()` from an entry of `id_` on, after `d` iterators have been erased. -/
def nextIds : List ℕ → ℕ → List σ → List σ
  | [], _, iters => iters
  | i :: id, d, iters =>
    match if d ≤ i then iters[i - d]? else none with
    | none => nextIds id d iters
    | some it =>
      match taken I.next it with
      | none => nextIds id (d + 1) (iters.eraseIdx (i - d))
      | some it' => nextIds id d (iters.set (i - d) it')

/-- The loop that looks for the smallest time, from the iterator at position `i` on. -/
def pickLoop : List σ → ℕ → List ℕ → Sample → List ℕ × Sample
  | [], _, id, x => (id, x)
  | it :: iters, i, id, x =>
    if (I.at' it).1.toInt < x.1.toInt then pickLoop iters (i + 1) [i] (I.at' it)
    else if (I.at' it).1 = x.1 then pickLoop iters (i + 1) (id ++ [i]) (x.1, (I.at' it).2)
    else pickLoop iters (i + 1) id x

variable (m : MergeSeriesIterator σ)

/-- The second half of `seek` and of `next`. -/
def pick : List σ → Bool × MergeSeriesIterator σ
  | [] => (false, { m with iters := [], init := true })
  | it :: iters =>
    let (id, x) := pickLoop I iters 1 [0] (I.at' it)
    (true, { iters := it :: iters, id := id, t := x.1, v := x.2, init := true })

def seek (t : ℤ) (m : MergeSeriesIterator σ) : Bool × MergeSeriesIterator σ :=
  if m.iters.isEmpty then (false, m)
  else m.pick I (m.iters.filterMap (taken (I.seek t)))

def next : Bool × MergeSeriesIterator σ :=
  if m.iters.isEmpty then (false, m)
  else
    let iters := if m.init then m.iters else m.iters.filterMap (taken I.next)
    m.pick I (nextIds I m.id 0 iters)

def at' : Sample := (m.t, m.v)

def interface : SeriesIteratorInterface (MergeSeriesIterator σ) where
  seek := seek I
  at' := at'
  next := next I

end

/-! ## What a call does -/

variable {σ : Type*} {I : SeriesIteratorInterface σ}

theorem nextIds_findIdxs (p : σ → Bool) (before iters : List σ) (d : ℕ) :
    nextIds I (iters.findIdxs p (before.length + d)) d (before ++ iters) =
      before ++ iters.filterMap fun it =>
        if p it then taken I.next it else some it := by
  induction iters generalizing before d with
  | nil => rfl
  | cons it iters ih =>
    have hcons : ∀ it' : σ, before ++ it' :: iters = (before ++ [it']) ++ iters := by simp
    rw [findIdxs_cons]
    by_cases hp : p it = true
    · rw [if_pos hp, nextIds, if_pos (Nat.le_add_left d _), Nat.add_sub_cancel,
        getElem?_append_right le_rfl, Nat.sub_self, getElem?_cons_zero]
      dsimp only
      cases htaken : taken I.next it with
      | none =>
        rw [filterMap_cons_none (by rw [if_pos hp, htaken]),
          eraseIdx_append_of_length_le le_rfl, Nat.sub_self, eraseIdx_cons_zero,
          Nat.add_assoc]
        exact ih before (d + 1)
      | some it' =>
        dsimp only
        rw [filterMap_cons_some (by rw [if_pos hp, htaken]),
          set_append_right _ _ le_rfl, Nat.sub_self, set_cons_zero, hcons]
        have h := ih (before ++ [it']) d
        rw [length_append, length_singleton, Nat.add_right_comm] at h
        rw [h, append_assoc]
        rfl
    · rw [if_neg hp, filterMap_cons_some (b := it) (by rw [if_neg hp]), hcons]
      have h := ih (before ++ [it]) d
      rw [length_append, length_singleton, Nat.add_right_comm] at h
      rw [h, append_assoc]
      rfl

/-- `id_`, `t_` and `v_` for the current samples of some iterators. -/
structure Picked (I : SeriesIteratorInterface σ) (iters : List σ) (id : List ℕ) (x : Sample) :
    Prop where
  id_eq : id = iters.findIdxs fun it => decide ((I.at' it).1 = x.1)
  last : ∃ before it after, iters = before ++ it :: after ∧ I.at' it = x ∧
    ∀ it' ∈ after, (I.at' it').1 ≠ x.1
  le : ∀ it ∈ iters, x.1.toInt ≤ (I.at' it).1.toInt

variable {iters : List σ} {x : Sample} {id : List ℕ} {ls : List (List Sample)}
  {m : MergeSeriesIterator σ}

theorem Picked.snoc (h : Picked I iters id x) (it : σ) (hne : (I.at' it).1 ≠ x.1)
    (hle : x.1.toInt ≤ (I.at' it).1.toInt) : Picked I (iters ++ [it]) id x where
  id_eq := by
    rw [findIdxs_append, ← h.id_eq, findIdxs_singleton, if_neg (by simpa using hne),
      append_nil]
  last := by
    obtain ⟨before, it₁, after, rfl, hx, hafter⟩ := h.last
    refine ⟨before, it₁, after ++ [it], by simp, hx, fun it' hit' => ?_⟩
    rcases mem_append.1 hit' with hit' | hit'
    · exact hafter it' hit'
    · rw [mem_singleton.1 hit']
      exact hne
  le it' hit' := by
    rcases mem_append.1 hit' with hit' | hit'
    · exact h.le it' hit'
    · rw [mem_singleton.1 hit']
      exact hle

theorem pickLoop_picked {before : List σ} (h : Picked I before id x) (iters : List σ) :
    Picked I (before ++ iters) (pickLoop I iters before.length id x).1
      (pickLoop I iters before.length id x).2 := by
  induction iters generalizing before id x with
  | nil =>
    rw [append_nil]
    exact h
  | cons it iters ih =>
    have hlen : before.length + 1 = (before ++ [it]).length := by simp
    rw [pickLoop, append_cons, hlen]
    split_ifs with hlt heq
    · refine ih ⟨?_, ⟨before, it, [], rfl, rfl, nofun⟩, ?_⟩
      · rw [findIdxs_append, findIdxs_eq_nil_iff.2 (fun it' hit' => ?_),
          findIdxs_singleton, if_pos (by simp), Nat.zero_add, nil_append]
        refine decide_eq_false fun heq => ?_
        have hle := h.le it' hit'
        rw [heq] at hle
        omega
      · intro it' hit'
        rcases mem_append.1 hit' with hit' | hit'
        · exact hlt.le.trans (h.le it' hit')
        · rw [mem_singleton.1 hit']
    · have hx : (x.1, (I.at' it).2) = I.at' it := by rw [← heq]
      rw [hx]
      refine ih ⟨?_, ⟨before, it, [], rfl, rfl, nofun⟩, ?_⟩
      · rw [findIdxs_append, heq, ← h.id_eq, findIdxs_singleton,
          if_pos (by simpa using heq), Nat.zero_add]
      · intro it' hit'
        rw [heq]
        rcases mem_append.1 hit' with hit' | hit'
        · exact h.le it' hit'
        · rw [mem_singleton.1 hit', heq]
    · exact ih (h.snoc it heq (not_lt.1 hlt))

theorem pick_cons (m : MergeSeriesIterator σ) (it : σ) (iters : List σ) :
    ∃ m', m.pick I (it :: iters) = (true, m') ∧ m'.iters = it :: iters ∧ m'.init = true ∧
      Picked I (it :: iters) m'.id m'.at' := by
  have hfirst : Picked I [it] [0] (I.at' it) := by
    refine ⟨?_, ⟨[], it, [], rfl, rfl, nofun⟩, ?_⟩
    · rw [findIdxs_singleton, if_pos (by simp)]
    · intro it' hit'
      rw [mem_singleton.1 hit']
  exact ⟨_, rfl, rfl, rfl, pickLoop_picked hfirst iters⟩

/-! ## The samples that are left -/

theorem time_injective {y : Sample} (h : time x = time y) : x.1 = y.1 :=
  BitVec.eq_of_toInt_eq h

def Remaining (I : SeriesIteratorInterface σ) : List σ → List (List Sample) → Prop :=
  List.Forall₂ fun it l => ∃ tail, l = I.at' it :: tail ∧ I.Yields it tail

theorem remaining_filterMap (h : List.Forall₂ I.Yields iters ls) :
    Remaining I (iters.filterMap (taken I.next)) (ls.filter fun l => !l.isEmpty) := by
  induction h with
  | nil => exact List.Forall₂.nil
  | @cons it l iters ls hit _ ih =>
    cases l with
    | nil =>
      rw [filterMap_cons_none hit, filter_cons_of_neg (by simp)]
      exact ih
    | cons x l =>
      obtain ⟨it', htaken, rfl, hl⟩ := hit
      rw [filterMap_cons_some htaken, filter_cons_of_pos (by simp)]
      exact List.Forall₂.cons ⟨l, rfl, hl⟩ ih

theorem Remaining.without (h : Remaining I iters ls)
    (hasc : ∀ l ∈ ls, l.Pairwise fun x y => time x < time y)
    (hle : ∀ it ∈ iters, time x ≤ time (I.at' it)) :
    Remaining I (iters.filterMap fun it =>
        if decide ((I.at' it).1 = x.1) then taken I.next it else some it)
      (LastUnion.without time (time x) ls) := by
  induction h with
  | nil => exact List.Forall₂.nil
  | @cons it l iters ls hit _ ih =>
    obtain ⟨tail, rfl, hyields⟩ := hit
    obtain ⟨htail, -⟩ := pairwise_cons.1 (hasc _ mem_cons_self)
    have hit := hle it mem_cons_self
    have hkeep : tail.filter (fun y => decide (time y ≠ time x)) = tail :=
      filter_eq_self.2 fun y hy => decide_eq_true (hit.trans_lt (htail y hy)).ne'
    have hrest := ih (fun l hl => hasc l (mem_cons_of_mem _ hl))
      fun it' hit' => hle it' (mem_cons_of_mem _ hit')
    rw [LastUnion.without, map_cons]
    by_cases heq : (I.at' it).1 = x.1
    · have hdrop : (I.at' it :: tail).filter (fun y => decide (time y ≠ time x)) = tail := by
        rw [filter_cons_of_neg (by simp [time, heq]), hkeep]
      rw [hdrop]
      cases tail with
      | nil =>
        rw [filterMap_cons_none (by rw [if_pos (decide_eq_true heq)]; exact hyields),
          filter_cons_of_neg (by simp)]
        exact hrest
      | cons y tail =>
        obtain ⟨it', htaken, rfl, hl⟩ := hyields
        rw [filterMap_cons_some (by rw [if_pos (decide_eq_true heq)]; exact htaken),
          filter_cons_of_pos (by simp)]
        exact List.Forall₂.cons ⟨tail, rfl, hl⟩ hrest
    · have hne : time (I.at' it) ≠ time x := fun h => heq (time_injective h)
      have hdrop : (I.at' it :: tail).filter (fun y => decide (time y ≠ time x)) =
          I.at' it :: tail := by
        rw [filter_cons_of_pos (by simpa using hne), hkeep]
      rw [hdrop, filterMap_cons_some (b := it) (by rw [if_neg (by simpa using heq)]),
        filter_cons_of_pos (by simp)]
      exact List.Forall₂.cons ⟨tail, rfl, hyields⟩ hrest

structure Pending (I : SeriesIteratorInterface σ) (m : MergeSeriesIterator σ)
    (ls : List (List Sample)) : Prop where
  remaining : Remaining I (nextIds I m.id 0
    (if m.init then m.iters else m.iters.filterMap (taken I.next))) ls
  ascending : ∀ l ∈ ls, l.Pairwise fun x y => time x < time y

theorem pending_ofIters (h : List.Forall₂ I.Yields iters ls)
    (hasc : ∀ l ∈ ls, l.Pairwise fun x y => time x < time y) :
    Pending I (ofIters iters) (ls.filter fun l => !l.isEmpty) :=
  ⟨remaining_filterMap h, fun l hl => hasc l (mem_of_mem_filter hl)⟩

theorem Remaining.exists_le (h : Remaining I iters ls)
    (hasc : ∀ l ∈ ls, l.Pairwise fun x y => time x < time y) {l : List Sample} (hl : l ∈ ls)
    {y : Sample} (hy : y ∈ l) : ∃ it ∈ iters, time (I.at' it) ≤ time y := by
  induction h with
  | nil => exact absurd hl not_mem_nil
  | @cons it l' iters ls hit _ ih =>
    rcases mem_cons.1 hl with rfl | hl
    · obtain ⟨tail, rfl, -⟩ := hit
      refine ⟨it, mem_cons_self, ?_⟩
      rcases mem_cons.1 hy with rfl | hy
      · exact le_rfl
      · exact ((pairwise_cons.1 (hasc _ mem_cons_self)).1 y hy).le
    · obtain ⟨it', hit', hle⟩ := ih (fun l hl => hasc l (mem_cons_of_mem _ hl)) hl
      exact ⟨it', mem_cons_of_mem _ hit', hle⟩

theorem Remaining.split {before after : List σ} {it : σ}
    (h : Remaining I (before ++ it :: after) ls) :
    ∃ ls₁ tail ls₂, ls = ls₁ ++ (I.at' it :: tail) :: ls₂ ∧ Remaining I after ls₂ := by
  induction before generalizing ls with
  | nil =>
    obtain @⟨-, -⟩ | @⟨_, l, _, ls, ⟨tail, rfl, -⟩, hafter⟩ := h
    exact ⟨[], tail, ls, rfl, hafter⟩
  | cons it' before ih =>
    obtain @⟨-, -⟩ | @⟨_, l, _, ls, -, hrest⟩ := h
    obtain ⟨ls₁, tail, ls₂, rfl, hafter⟩ := ih hrest
    exact ⟨l :: ls₁, tail, ls₂, rfl, hafter⟩

theorem Remaining.last (h : Remaining I iters ls)
    (hasc : ∀ l ∈ ls, l.Pairwise fun x y => time x < time y) (hx : Picked I iters id x) :
    LastUnion.Last time ls x ∧ ∀ l ∈ ls, ∀ y ∈ l, time x ≤ time y := by
  constructor
  · obtain ⟨before, it, after, rfl, rfl, hafter⟩ := hx.last
    obtain ⟨ls₁, tail, ls₂, rfl, hrest⟩ := h.split
    refine ⟨ls₁, I.at' it :: tail, ls₂, rfl, mem_cons_self, fun l hl y hy heq => ?_⟩
    obtain ⟨it', hit', hle⟩ := hrest.exists_le (fun l hl => hasc l (mem_append_right _
      (mem_cons_of_mem _ hl))) hl hy
    have hge := hx.le it' (mem_append_right _ (mem_cons_of_mem _ hit'))
    exact hafter it' hit' (time_injective (le_antisymm (heq ▸ hle) hge))
  · intro l hl y hy
    obtain ⟨it, hit, hle⟩ := h.exists_le hasc hl hy
    exact (hx.le it hit).trans hle

theorem Remaining.pending (h : Remaining I iters ls)
    (hasc : ∀ l ∈ ls, l.Pairwise fun x y => time x < time y) (hiters : m.iters = iters)
    (hinit : m.init = true) (hx : Picked I iters m.id m.at') :
    Pending I m (LastUnion.without time (time m.at') ls) := by
  refine ⟨?_, fun l hl => ?_⟩
  · have hnext := nextIds_findIdxs (I := I) (fun it => decide ((I.at' it).1 = m.at'.1)) [] iters 0
    rw [nil_append, nil_append, length_nil, Nat.zero_add, ← hx.id_eq] at hnext
    rw [hinit, if_pos rfl, hiters, hnext]
    exact h.without hasc hx.le
  · obtain ⟨l', hl', rfl⟩ := LastUnion.mem_of_mem_without hl
    exact (hasc l' hl').filter _

/-- A call shows the first sample of the union of `ls`, or there is none. -/
def Goes (I : SeriesIteratorInterface σ) (ls : List (List Sample))
    (r : Bool × MergeSeriesIterator σ) : Prop :=
  (r.1 = false ∧ r.2.iters = [] ∧ ls = []) ∨
    (r.1 = true ∧ LastUnion.Last time ls r.2.at' ∧ (∀ l ∈ ls, ∀ y ∈ l, time r.2.at' ≤ time y) ∧
      Pending I r.2 (LastUnion.without time (time r.2.at') ls))

theorem Remaining.pick (h : Remaining I iters ls)
    (hasc : ∀ l ∈ ls, l.Pairwise fun x y => time x < time y) (m : MergeSeriesIterator σ) :
    Goes I ls (m.pick I iters) := by
  cases iters with
  | nil => exact Or.inl ⟨rfl, rfl, forall₂_nil_left_iff.1 h⟩
  | cons it iters =>
    obtain ⟨m', heq, hiters, hinit, hpicked⟩ := pick_cons (I := I) m it iters
    obtain ⟨hlast, hmin⟩ := h.last hasc hpicked
    rw [heq]
    exact Or.inr ⟨rfl, hlast, hmin, h.pending hasc hiters hinit hpicked⟩

theorem nextIds_nil (id : List ℕ) (d : ℕ) : nextIds I id d [] = [] := by
  induction id with
  | nil => rfl
  | cons i id ih => rw [nextIds, getElem?_nil, ite_self, ih]

theorem Pending.goes (h : Pending I m ls) : Goes I ls (m.next I) := by
  rw [MergeSeriesIterator.next]
  by_cases hempty : m.iters = []
  · have hrem := h.remaining
    rw [hempty, filterMap_nil, ite_self, nextIds_nil] at hrem
    rw [hempty]
    exact Or.inl ⟨rfl, hempty, forall₂_nil_left_iff.1 hrem⟩
  · rw [if_neg (by simpa using hempty)]
    exact h.remaining.pick h.ascending m

theorem next_of_empty (h : m.iters = []) : m.next I = (false, m) := by
  rw [MergeSeriesIterator.next, h]
  rfl

def Merges (I : SeriesIteratorInterface σ) (m : MergeSeriesIterator σ) (ls : List (List Sample)) :
    Prop :=
  ∃ l, (interface I).Yields m l ∧ LastUnion.IsUnion time ls l ∧
    ∀ k, l.length ≤ k → (((interface I).after k m).next I).1 = false

theorem Pending.merges (h : Pending I m ls) : Merges I m ls := by
  generalize hn : ls.flatten.length = n
  induction n using Nat.strong_induction_on generalizing m ls with
  | _ n ih =>
    rcases h.goes with ⟨hfalse, hempty, rfl⟩ | ⟨htrue, hlast, hmin, hpending⟩
    · refine ⟨[], ?_, LastUnion.isUnion_nil, fun k _ => ?_⟩
      · change taken (MergeSeriesIterator.next I) m = none
        rw [taken, hfalse, if_neg Bool.false_ne_true]
      · cases k with
        | zero => exact hfalse
        | succ k =>
          -- without an iterator the state does not change any more
          have hfix := next_of_empty (I := I) hempty
          have hafter : (interface I).after k (m.next I).2 = (m.next I).2 :=
            Function.iterate_fixed (congrArg Prod.snd hfix) k
          change (((interface I).after k (m.next I).2).next I).1 = false
          rw [hafter, hfix]
    · obtain ⟨l, hyields, hunion, hend⟩ := ih _ (hn ▸ LastUnion.length_flatten_without_lt hlast)
        hpending rfl
      refine ⟨(m.next I).2.at' :: l, ⟨(m.next I).2, ?_, rfl, hyields⟩,
        LastUnion.IsUnion.cons h.ascending hlast hmin hunion, fun k hk => ?_⟩
      · change taken (MergeSeriesIterator.next I) m = some (m.next I).2
        rw [taken, htrue, if_pos rfl]
      · obtain ⟨k, rfl⟩ := Nat.exists_eq_succ_of_ne_zero (Nat.ne_of_gt (Nat.zero_lt_of_lt hk))
        exact hend k (Nat.succ_le_succ_iff.1 hk)

/-- The merge of iterators whose samples ascend shows every time of one of them once, in their
order, with the value of the last iterator that has the time. After the last one `next` stays
`false`. -/
theorem mergeSeriesIterator_yields (I : SeriesIteratorInterface σ) (iters : List σ)
    (ls : List (List Sample)) (h : List.Forall₂ I.Yields iters ls)
    (hasc : ∀ l ∈ ls, l.Pairwise fun x y => x.1.toInt < y.1.toInt) :
    ∃ l, (interface I).Yields (ofIters iters) l ∧
      l.Pairwise (fun x y => x.1.toInt < y.1.toInt) ∧
      (∀ x, x ∈ l ↔ ∃ before l' after, ls = before ++ l' :: after ∧ x ∈ l' ∧
        ∀ l'' ∈ after, ∀ y ∈ l'', y.1.toInt ≠ x.1.toInt) ∧
      ∀ k, l.length ≤ k → (((interface I).after k (ofIters iters)).next I).1 = false := by
  obtain ⟨l, hyields, hunion, hend⟩ := (pending_ofIters h hasc).merges
  have hunion' := LastUnion.isUnion_filter hunion
  exact ⟨l, hyields, hunion'.ascending, hunion'.mem_iff, hend⟩

def ofList : SeriesIteratorInterface (List Sample) where
  seek t l := (true, l.dropWhile fun x => x.1.toInt < t)
  at' l := l.headD (0#64, 0#64)
  next l := if l.tail.isEmpty then (false, l) else (true, l.tail)

theorem yields_ofList (x : Sample) (l : List Sample) : ofList.Yields (x :: l) l := by
  induction l generalizing x with
  | nil => rfl
  | cons y l ih => exact ⟨y :: l, rfl, rfl, ih y⟩

/-- Of two samples with the time 1 the second is shown. -/
theorem mergeSeriesIterator_yields_sameTime :
    ∃ l, (interface ofList).Yields (ofIters [[(0#64, 0#64), (1#64, 10#64), (3#64, 30#64)],
        [(0#64, 0#64), (1#64, 11#64), (2#64, 20#64)]]) l ∧
      l.Pairwise (fun x y => x.1.toInt < y.1.toInt) ∧ (1#64, 11#64) ∈ l := by
  obtain ⟨l, hyields, hasc, hmem, -⟩ := mergeSeriesIterator_yields ofList
    [[(0#64, 0#64), (1#64, 10#64), (3#64, 30#64)], [(0#64, 0#64), (1#64, 11#64), (2#64, 20#64)]]
    [[(1#64, 10#64), (3#64, 30#64)], [(1#64, 11#64), (2#64, 20#64)]]
    (List.Forall₂.cons (yields_ofList _ _) (List.Forall₂.cons (yields_ofList _ _)
      List.Forall₂.nil)) (by decide)
  exact ⟨l, hyields, hasc, (hmem _).2 ⟨[_], _, [], rfl, by decide, by decide⟩⟩

end MergeSeriesIterator

end PromTCS
