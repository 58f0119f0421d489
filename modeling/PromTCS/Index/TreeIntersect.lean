import Mathlib.Algebra.Order.BigOperators.Group.List
import Mathlib.Algebra.Order.Ring.Nat
import Mathlib.Data.List.Forall2
import PromTCS.Lib.Cursor

/-!
# Intersection of posting lists

`TreeIntersectPostingsLists` moves all its posting lists forward by one and then lets
each of them seek the largest id any of them is at, until they are all at the same.
The ids it stops at are those in all of the lists.

The functions return `none` when `fuel` rounds do not end their loop, and the inner
`none` of the loop is the result `false`.
-/

namespace PromTCS

open List

namespace TreeIntersect

variable {σ : Type*} (c : Cursor σ)

/-- The loop of `next` over the lists. -/
def nextAll : List σ → ℕ → Option (ℕ × List σ)
  | [], max => some (max, [])
  | p :: ps, max =>
    let r := c.next p
    if r.1 then
      (nextAll ps (if max < c.at' r.2 then c.at' r.2 else max)).map fun q => (q.1, r.2 :: q.2)
    else none

/-- One round of `recursive_next` over the lists. -/
def seekAll : List σ → ℕ → Bool → Option ((ℕ × Bool) × List σ)
  | [], max, find => some ((max, find), [])
  | p :: ps, max, find =>
    let r := c.seek p max
    if r.1 then
      (if max < c.at' r.2 then seekAll ps (c.at' r.2) false else seekAll ps max find).map
        fun q => (q.1, r.2 :: q.2)
    else none

def recursiveNext : ℕ → ℕ → List σ → Option (Option (List σ))
  | 0, _, _ => none
  | fuel + 1, max, ps =>
    match seekAll c ps max true with
    | none => some none
    | some ((max', find), ps') =>
      if find then some (some ps') else recursiveNext fuel max' ps'

def next (fuel : ℕ) (ps : List σ) : Option (Option (List σ)) :=
  match nextAll c ps 0 with
  | none => some none
  | some (max, ps') => recursiveNext c fuel max ps'

/-- The loop `while (p.next()) v.push_back(p.at())`. -/
def collect : ℕ → List σ → Option (List ℕ)
  | 0, _ => none
  | fuel + 1, ps =>
    match next c (fuel + 1) ps with
    | none => none
    | some none => some []
    | some (some ps') =>
      (collect fuel ps').map fun v => (ps'.head?.map c.at').getD 0 :: v

def Common (ls : List (List ℕ)) (x : ℕ) : Prop :=
  ∀ l ∈ ls, x ∈ l

variable {ls : List (List ℕ)} {l : List ℕ} {wanted : ℕ → Prop} {max : ℕ} {ps : List σ}

theorem common_cons {x : ℕ} : Common (l :: ls) x ↔ x ∈ l ∧ Common ls x := by
  simp [Common]

def total (ls : List (List ℕ)) : ℕ := (ls.map List.length).sum

theorem total_cons (l : List ℕ) (ls : List (List ℕ)) : total (l :: ls) = l.length + total ls := by
  simp [total]

structure Shrinks (ls' ls : List (List ℕ)) : Prop where
  length_eq : ls'.length = ls.length
  common : ∀ x, Common ls' x → Common ls x
  total_le : total ls' ≤ total ls

theorem Shrinks.refl (ls : List (List ℕ)) : Shrinks ls ls := ⟨rfl, fun _ => id, Nat.le_refl _⟩

theorem Shrinks.trans {ls₁ ls₂ ls₃ : List (List ℕ)} (h₁ : Shrinks ls₁ ls₂) (h₂ : Shrinks ls₂ ls₃) :
    Shrinks ls₁ ls₃ :=
  ⟨h₁.length_eq.trans h₂.length_eq, fun x hx => h₂.common x (h₁.common x hx),
    Nat.le_trans h₁.total_le h₂.total_le⟩

theorem Shrinks.cons {l' : List ℕ} {ls' : List (List ℕ)} (h : Shrinks ls' ls) (hl : l' <:+ l) :
    Shrinks (l' :: ls') (l :: ls) where
  length_eq := congrArg Nat.succ h.length_eq
  common x hx := by
    obtain ⟨hl', hls'⟩ := common_cons.1 hx
    exact common_cons.2 ⟨hl.subset hl', h.common x hls'⟩
  total_le := by
    rw [total_cons, total_cons]
    exact Nat.add_le_add hl.length_le h.total_le

/-- No list is ahead of `max`, and `max` is not beyond any of the wanted ids, all of
which are still left. -/
structure Ahead (ls : List (List ℕ)) (wanted : ℕ → Prop) (max : ℕ) : Prop where
  ascending : ∀ l ∈ ls, l.Pairwise (· < ·)
  heads : ∀ l ∈ ls, ∃ x, l.head? = some x ∧ x ≤ max
  common : ∀ x, wanted x → Common ls x
  le : ∀ x, wanted x → max ≤ x

theorem Ahead.tail {max' : ℕ} (h : Ahead (l :: ls) wanted max) (hmax : max ≤ max')
    (hle : ∀ x, wanted x → max' ≤ x) : Ahead ls wanted max' where
  ascending l' hl' := h.ascending l' (mem_cons_of_mem l hl')
  heads l' hl' := by
    obtain ⟨x, hx, hxm⟩ := h.heads l' (mem_cons_of_mem l hl')
    exact ⟨x, hx, Nat.le_trans hxm hmax⟩
  common x hx := (common_cons.1 (h.common x hx)).2
  le := hle

theorem Ahead.cons {y : ℕ} (h : Ahead ls wanted max) (hasc : (y :: l).Pairwise (· < ·))
    (hy : y ≤ max) (hmem : ∀ x, wanted x → x ∈ y :: l) : Ahead ((y :: l) :: ls) wanted max where
  ascending := forall_mem_cons.2 ⟨hasc, h.ascending⟩
  heads := forall_mem_cons.2 ⟨⟨y, rfl, hy⟩, h.heads⟩
  common x hx := common_cons.2 ⟨hmem x hx, h.common x hx⟩
  le := h.le

variable {c} {fresh here : σ → List ℕ → Prop} (hc : c.Lawful fresh here)

/-- The next call of `next` leads to the list. -/
def Starts (fresh here : σ → List ℕ → Prop) (p : σ) (l : List ℕ) : Prop :=
  fresh p l ∨ ∃ x, here p (x :: l)

section Tails

variable {ls : List (List ℕ)} {v : ℕ} (hheads : ∀ l ∈ ls, l = v :: l.tail)

include hheads

theorem starts_tails {ps : List σ} (h : List.Forall₂ here ps ls) :
    List.Forall₂ (Starts fresh here) ps (ls.map List.tail) := by
  induction h with
  | nil => exact .nil
  | @cons p l ps ls hp hps ih =>
    refine .cons (Or.inr ⟨v, ?_⟩) (ih fun l' hl' => hheads l' (mem_cons_of_mem l hl'))
    rwa [← hheads l mem_cons_self]

theorem common_tails (hne : ls ≠ []) (hasc : ∀ l ∈ ls, l.Pairwise (· < ·)) {x : ℕ} :
    Common (ls.map List.tail) x ↔ Common ls x ∧ v < x := by
  have hmem : ∀ l ∈ ls, (x ∈ l.tail ↔ x ∈ l ∧ v < x) := fun l hl => by
    have hl' := hasc l hl
    rw [hheads l hl] at hl' ⊢
    rw [tail_cons, mem_cons]
    refine ⟨fun hx => ⟨Or.inr hx, (pairwise_cons.1 hl').1 x hx⟩, ?_⟩
    rintro ⟨rfl | hx, hlt⟩
    · exact absurd hlt (Nat.lt_irrefl x)
    · exact hx
  obtain ⟨l₀, hl₀⟩ := exists_mem_of_ne_nil ls hne
  rw [Common, forall_mem_map]
  constructor
  · intro h
    exact ⟨fun l hl => ((hmem l hl).1 (h l hl)).1, ((hmem l₀ hl₀).1 (h l₀ hl₀)).2⟩
  · rintro ⟨h, hlt⟩ l hl
    exact (hmem l hl).2 ⟨h l hl, hlt⟩

theorem total_tails_lt (hne : ls ≠ []) : total (ls.map List.tail) < total ls := by
  have hlen : ∀ l ∈ ls, l.tail.length < l.length := fun l hl => by
    rw [hheads l hl]
    exact Nat.lt_succ_self _
  rw [total, map_map]
  exact sum_lt_sum_of_ne_nil hne (List.length ∘ List.tail) List.length hlen

end Tails

include hc

theorem Starts.next {p : σ} (h : Starts fresh here p l) :
    (c.next p).1 = !l.isEmpty ∧ (l ≠ [] → here (c.next p).2 l) := by
  rcases h with hfresh | ⟨x, hhere⟩
  · exact hc.next_fresh hfresh
  · exact hc.next_here hhere

theorem seekAll_spec (hhere : List.Forall₂ here ps ls) (hahead : Ahead ls wanted max) (find : Bool) :
    (seekAll c ps max find = none ∧ ∀ x, ¬ wanted x) ∨
      ∃ max' find' ps' ls', seekAll c ps max find = some ((max', find'), ps') ∧
        List.Forall₂ here ps' ls' ∧ Ahead ls' wanted max' ∧ max ≤ max' ∧
        Shrinks ls' ls ∧
        (find' = true → find = true ∧ max' = max ∧ ∀ l' ∈ ls', l'.head? = some max) ∧
        (find' = false → find = false ∨ total ls' < total ls) := by
  induction hhere generalizing max find with
  | nil =>
    exact Or.inr ⟨max, find, [], [], rfl, .nil, hahead, Nat.le_refl _, .refl [],
      fun hf => ⟨hf, rfl, fun l' hl' => by cases hl'⟩, Or.inl⟩
  | @cons p l ps ls hp hps ih =>
    obtain ⟨hres, hmove⟩ := hc.seek_here max hp
    have hasc := hahead.ascending l mem_cons_self
    have hkeep : ∀ x, wanted x → x ∈ l.dropWhile (· < max) := fun x hx =>
      (mem_dropWhile_lt_iff hasc).2 ⟨hahead.common x hx l mem_cons_self, hahead.le x hx⟩
    rw [seekAll]
    cases hl' : l.dropWhile (· < max) with
    | nil =>
      rw [hl'] at hres hkeep
      refine Or.inl ⟨if_neg (by simp [hres]), fun x hx => ?_⟩
      exact absurd (hkeep x hx) not_mem_nil
    | cons y l' =>
      have hasc' : (y :: l').Pairwise (· < ·) := hl' ▸ pairwise_dropWhile hasc
      have hsuffix : y :: l' <:+ l := hl' ▸ dropWhile_suffix _
      have hy : max ≤ y := ((mem_dropWhile_lt_iff hasc).1 (hl' ▸ mem_cons_self)).2
      rw [hl'] at hres hkeep hmove
      have hhere' := hmove (cons_ne_nil y l')
      have hwanted : ∀ x, wanted x → y ≤ x := fun x hx => by
        rcases mem_cons.1 (hkeep x hx) with rfl | hx'
        · exact Nat.le_refl _
        · exact Nat.le_of_lt ((pairwise_cons.1 hasc').1 x hx')
      rw [if_pos (by simp [hres]), hc.at_here hhere']
      by_cases hlt : max < y
      · -- The list has jumped over `max`, so it was moved.
        have hshort : (y :: l').length < l.length := by
          rcases @dropWhile_eq_or_length_lt l max with heq | hlen
          · obtain ⟨z, hz, hzm⟩ := hahead.heads l mem_cons_self
            rw [← heq, hl'] at hz
            cases hz
            exact absurd hlt (Nat.not_lt.2 hzm)
          · rwa [hl'] at hlen
        rw [if_pos hlt]
        rcases ih (hahead.tail hy hwanted) false with
          ⟨hnone, hno⟩ | ⟨max', find', ps', ls', hsome, hhere₂, hahead₂, hle, hshrinks, htrue, hfalse⟩
        · exact Or.inl ⟨by rw [hnone]; rfl, hno⟩
        · refine Or.inr ⟨max', find', _, _, by rw [hsome]; rfl, .cons hhere' hhere₂,
            hahead₂.cons hasc' hle hkeep, Nat.le_trans hy hle, hshrinks.cons hsuffix,
            fun hf => ?_, fun _ => Or.inr ?_⟩
          · cases (htrue hf).1
          · rw [total_cons, total_cons]
            exact Nat.add_lt_add_of_lt_of_le hshort hshrinks.total_le
      · have hmax : y = max := Nat.le_antisymm (Nat.not_lt.1 hlt) hy
        rw [if_neg hlt]
        rcases ih (hahead.tail (Nat.le_refl _) hahead.le) find with
          ⟨hnone, hno⟩ | ⟨max', find', ps', ls', hsome, hhere₂, hahead₂, hle, hshrinks, htrue, hfalse⟩
        · exact Or.inl ⟨by rw [hnone]; rfl, hno⟩
        · refine Or.inr ⟨max', find', _, _, by rw [hsome]; rfl, .cons hhere' hhere₂,
            hahead₂.cons hasc' (hmax ▸ hle) hkeep, hle, hshrinks.cons hsuffix,
            fun hf => ?_, fun hf => (hfalse hf).imp_right fun hlen => ?_⟩
          · obtain ⟨hfind, hmax', hheads⟩ := htrue hf
            exact ⟨hfind, hmax', forall_mem_cons.2 ⟨congrArg some hmax, hheads⟩⟩
          · rw [total_cons, total_cons]
            exact Nat.add_lt_add_of_le_of_lt hsuffix.length_le hlen

theorem recursiveNext_spec {fuel : ℕ} (hhere : List.Forall₂ here ps ls)
    (hahead : Ahead ls wanted max) (hfuel : total ls < fuel) :
    (recursiveNext c fuel max ps = some none ∧ ∀ x, ¬ wanted x) ∨
      ∃ v ps' ls', recursiveNext c fuel max ps = some (some ps') ∧
        List.Forall₂ here ps' ls' ∧ Ahead ls' wanted v ∧ (∀ l' ∈ ls', l'.head? = some v) ∧
        Shrinks ls' ls := by
  induction fuel generalizing ps ls max with
  | zero => exact absurd hfuel (Nat.not_lt_zero _)
  | succ fuel ih =>
    rw [recursiveNext]
    rcases seekAll_spec hc hhere hahead true with
      ⟨hnone, hno⟩ | ⟨max', find', ps', ls', hsome, hhere', hahead', -, hshrinks, htrue, hfalse⟩
    · exact Or.inl ⟨by rw [hnone], hno⟩
    · rw [hsome]
      cases find' with
      | true =>
        obtain ⟨-, rfl, hheads⟩ := htrue rfl
        exact Or.inr ⟨max', ps', ls', rfl, hhere', hahead', hheads, hshrinks⟩
      | false =>
        have hlen : total ls' < total ls := (hfalse rfl).resolve_left Bool.noConfusion
        have hfuel' : total ls' < fuel := Nat.lt_of_lt_of_le hlen (Nat.le_of_lt_succ hfuel)
        rcases ih hhere' hahead' hfuel' with
          ⟨hnone, hno⟩ | ⟨v, ps₂, ls₂, hsome₂, hhere₂, hahead₂, hheads, hshrinks₂⟩
        · exact Or.inl ⟨hnone, hno⟩
        · exact Or.inr ⟨v, ps₂, ls₂, hsome₂, hhere₂, hahead₂, hheads, hshrinks₂.trans hshrinks⟩


theorem nextAll_spec (hstarts : List.Forall₂ (Starts fresh here) ps ls)
    (hasc : ∀ l ∈ ls, l.Pairwise (· < ·)) (hcommon : ∀ x, wanted x → Common ls x)
    (hle : ∀ x, wanted x → max ≤ x) :
    (nextAll c ps max = none ∧ ∀ x, ¬ wanted x) ∨
      ∃ max' ps', nextAll c ps max = some (max', ps') ∧ List.Forall₂ here ps' ls ∧
        max ≤ max' ∧ Ahead ls wanted max' := by
  induction hstarts generalizing max with
  | nil => exact Or.inr ⟨max, [], rfl, .nil, Nat.le_refl _, hasc, by simp, hcommon, hle⟩
  | @cons p l ps ls hp hps ih =>
    obtain ⟨hres, hmove⟩ := hp.next hc
    rw [nextAll]
    cases l with
    | nil =>
      refine Or.inl ⟨if_neg (by simp [hres]), fun x hx => ?_⟩
      exact absurd (common_cons.1 (hcommon x hx)).1 not_mem_nil
    | cons y l =>
      have hhere := hmove (cons_ne_nil y l)
      have hmem : ∀ x, wanted x → x ∈ y :: l := fun x hx => (common_cons.1 (hcommon x hx)).1
      have hy : ∀ x, wanted x → y ≤ x := fun x hx => by
        rcases mem_cons.1 (hmem x hx) with rfl | hx'
        · exact Nat.le_refl _
        · exact Nat.le_of_lt
            ((pairwise_cons.1 (hasc _ mem_cons_self)).1 x hx')
      rw [if_pos (by simp [hres]), hc.at_here hhere]
      generalize hm : (if max < y then y else max) = m
      have hm' : max ≤ m ∧ y ≤ m ∧ ∀ x, wanted x → m ≤ x := by
        rw [← hm]
        split_ifs with hlt
        · exact ⟨Nat.le_of_lt hlt, Nat.le_refl _, hy⟩
        · exact ⟨Nat.le_refl _, Nat.not_lt.1 hlt, hle⟩
      rcases ih (fun l' hl' => hasc l' (mem_cons_of_mem _ hl'))
        (fun x hx => (common_cons.1 (hcommon x hx)).2) hm'.2.2 with
        ⟨hnone, hno⟩ | ⟨max', ps', hsome, hhere', hmax, hahead⟩
      · exact Or.inl ⟨by rw [hnone]; rfl, hno⟩
      · exact Or.inr ⟨max', _, by rw [hsome]; rfl, .cons hhere hhere',
          Nat.le_trans hm'.1 hmax, hahead.cons (hasc _ mem_cons_self)
            (Nat.le_trans hm'.2.1 hmax) hmem⟩

theorem collect_spec {fuel : ℕ} (hls : ls ≠ []) (hstarts : List.Forall₂ (Starts fresh here) ps ls)
    (hasc : ∀ l ∈ ls, l.Pairwise (· < ·)) (hfuel : total ls < fuel) :
    ∃ v, collect c fuel ps = some v ∧ v.Pairwise (· < ·) ∧ ∀ x, x ∈ v ↔ Common ls x := by
  induction fuel generalizing ps ls with
  | zero => exact absurd hfuel (Nat.not_lt_zero _)
  | succ fuel ih =>
    rw [collect, next]
    rcases nextAll_spec hc hstarts hasc (fun _ => id) (fun x _ => Nat.zero_le x) with
      ⟨hnone, hno⟩ | ⟨max, ps', hsome, hhere, -, hahead⟩
    · rw [hnone]
      exact ⟨[], rfl, .nil, fun x => iff_of_false not_mem_nil (hno x)⟩
    · rw [hsome]
      simp only
      rcases recursiveNext_spec hc hhere hahead hfuel with
        ⟨hnone, hno⟩ | ⟨v, ps₂, ls₂, hsome₂, hhere₂, hahead₂, hheads, hshrinks⟩
      · rw [hnone]
        exact ⟨[], rfl, .nil, fun x => iff_of_false not_mem_nil (hno x)⟩
      · rw [hsome₂]
        have hne : ls₂ ≠ [] := fun h => by
          have hlen := hshrinks.length_eq
          rw [h] at hlen
          exact hls (length_eq_zero_iff.1 hlen.symm)
        have hheads' : ∀ l ∈ ls₂, l = v :: l.tail := fun l hl =>
          eq_cons_of_mem_head? (hheads l hl)
        obtain ⟨w, hw, hwasc, hmem⟩ := ih (by simpa using hne) (starts_tails hheads' hhere₂)
          (fun l hl => by
            obtain ⟨l', hl', rfl⟩ := mem_map.1 hl
            exact (hahead₂.ascending l' hl').tail)
          (Nat.lt_of_lt_of_le (total_tails_lt hheads' hne)
            (Nat.le_trans hshrinks.total_le (Nat.le_of_lt_succ hfuel)))
        have hat : (ps₂.head?.map c.at').getD 0 = v := by
          cases hhere₂ with
          | nil => exact absurd rfl hne
          | @cons p l _ _ hp _ =>
            rw [hheads' l mem_cons_self] at hp
            exact hc.at_here hp
        refine ⟨v :: w, by simp only [hw, Option.map_some, hat], ?_, fun x => ?_⟩
        · exact pairwise_cons.2 ⟨fun x hx =>
            (((common_tails hheads' hne hahead₂.ascending).1 ((hmem x).1 hx))).2, hwasc⟩
        · rw [mem_cons, hmem, common_tails hheads' hne hahead₂.ascending]
          constructor
          · rintro (rfl | ⟨hx, -⟩)
            · refine hshrinks.common x fun l hl => ?_
              rw [hheads' l hl]
              exact mem_cons_self
            · exact hshrinks.common x hx
          · intro hx
            rcases Nat.eq_or_lt_of_le (hahead₂.le x hx) with rfl | hlt
            · exact Or.inl rfl
            · exact Or.inr ⟨hahead₂.common x hx, hlt⟩

end TreeIntersect

end PromTCS
