import Mathlib.Order.Lattice
import Mathlib.Order.Nat
import Mathlib.Data.List.Basic

/-!
# The newest element of a key

Elements have a key and a version. A read for a key looks through several sources one
after another and takes the first hit; it finds the newest element of all sources if
later sources hold only older elements of the same key. In a sequence that is ordered by
key, newer elements first, the newest of a key is the first of the key, and leaving out
all others of each key gives the newest of all keys in order.
-/

namespace Newest

open List

variable {α κ : Type*} (key : α → κ) (seq : α → ℕ)

/-- The newest element of the key `k` in `l`, or none if there is none. -/
structure IsNewest (l : List α) (k : κ) (o : Option α) : Prop where
  mem : ∀ x ∈ o, x ∈ l ∧ key x = k
  le : ∀ y ∈ l, key y = k → ∃ x ∈ o, seq y ≤ seq x

/-- Elements of `t` are older than those of `s` with the same key. -/
def Older (s t : List α) : Prop :=
  ∀ x ∈ s, ∀ y ∈ t, key x = key y → seq y ≤ seq x

variable {key seq}
  {k : κ} {o o' : Option α} {l : List α}

theorem IsNewest.congr {l' : List α} (h : IsNewest key seq l k o)
    (hl : ∀ x, key x = k → (x ∈ l ↔ x ∈ l')) : IsNewest key seq l' k o :=
  ⟨fun x hx => ⟨(hl x (h.mem x hx).2).1 (h.mem x hx).1, (h.mem x hx).2⟩,
    fun y hy hyk => h.le y ((hl y hyk).2 hy) hyk⟩

theorem IsNewest.mem_of_mem (h : IsNewest key seq l k o) (h' : IsNewest key seq l k o')
    (hinj : ∀ x ∈ l, ∀ y ∈ l, key x = key y → seq x = seq y → x = y) {x : α} (hx : x ∈ o) :
    x ∈ o' := by
  obtain ⟨hxl, hxk⟩ := h.mem x hx
  obtain ⟨y, hy, hle⟩ := h'.le x hxl hxk
  obtain ⟨hyl, hyk⟩ := h'.mem y hy
  obtain ⟨z, hz, hle'⟩ := h.le y hyl hyk
  rw [Option.mem_unique hz hx] at hle'
  rw [hinj x hxl y hyl (hxk.trans hyk.symm) (le_antisymm hle hle')]
  exact hy

theorem IsNewest.unique (h : IsNewest key seq l k o) (h' : IsNewest key seq l k o')
    (hinj : ∀ x ∈ l, ∀ y ∈ l, key x = key y → seq x = seq y → x = y) : o = o' :=
  Option.ext fun _ => ⟨fun hx => h.mem_of_mem h' hinj hx, fun hx => h'.mem_of_mem h hinj hx⟩

theorem isNewest_nil (k : κ) : IsNewest key seq [] k none :=
  ⟨fun _ h => (nomatch h), nofun⟩

theorem IsNewest.cons (h : IsNewest key seq l k o) {x : α} (hx : key x ≠ k) :
    IsNewest key seq (x :: l) k o := by
  refine ⟨fun y hy => ⟨mem_cons_of_mem x (h.mem y hy).1, (h.mem y hy).2⟩,
    fun y hy hyk => ?_⟩
  rcases mem_cons.1 hy with rfl | hy
  · exact absurd hyk hx
  · exact h.le y hy hyk

theorem IsNewest.append {s t : List α} (h : IsNewest key seq s k o) (h' : IsNewest key seq t k o')
    (hst : Older key seq s t) : IsNewest key seq (s ++ t) k (o.or o') := by
  cases o with
  | none =>
    refine ⟨fun x hx => ⟨mem_append_right _ (h'.mem x hx).1, (h'.mem x hx).2⟩,
      fun y hy hyk => ?_⟩
    rcases mem_append.1 hy with hy | hy
    · obtain ⟨x, hx, -⟩ := h.le y hy hyk
      exact nomatch hx
    · exact h'.le y hy hyk
  | some x =>
    obtain ⟨hxs, hxk⟩ := h.mem x rfl
    refine ⟨fun z hz => ?_, fun y hy hyk => ?_⟩
    · rw [← Option.some.inj hz]
      exact ⟨mem_append_left _ hxs, hxk⟩
    · rcases mem_append.1 hy with hy | hy
      · exact h.le y hy hyk
      · exact ⟨x, rfl, hst x hxs y hy (hxk.trans hyk.symm)⟩

theorem isNewest_findSome? {read : List α → Option α} {sources : List (List α)}
    (hread : ∀ s ∈ sources, IsNewest key seq s k (read s))
    (holder : sources.Pairwise (Older key seq)) :
    IsNewest key seq sources.flatten k (sources.findSome? read) := by
  induction sources with
  | nil => exact isNewest_nil k
  | cons s sources ih =>
    rw [forall_mem_cons] at hread
    obtain ⟨hs, hrest⟩ := pairwise_cons.1 holder
    have holder' : Older key seq s sources.flatten := by
      intro x hx y hy hxy
      obtain ⟨t, ht, hyt⟩ := mem_flatten.1 hy
      exact hs t ht x hx y hyt hxy
    have happ := hread.1.append (ih hread.2 hrest) holder'
    rw [flatten_cons, findSome?_cons]
    cases hr : read s with
    | none =>
      rw [hr, Option.none_or] at happ
      exact happ
    | some x =>
      rw [hr, Option.some_or] at happ
      exact happ

section Ordered

variable [LinearOrder κ]

def Ordered (key : α → κ) (seq : α → ℕ) (l : List α) : Prop :=
  l.Pairwise fun x y => key x < key y ∨ key x = key y ∧ seq y ≤ seq x

variable {l : List α}

theorem Ordered.isNewest_find? (h : Ordered key seq l) {k : κ} {p q : α → Bool}
    (hp : ∀ x ∈ l, (p x = true ↔ k ≤ key x)) (hq : ∀ x, q x = true ↔ key x = k) :
    IsNewest key seq l k ((l.find? p).filter q) := by
  induction l with
  | nil => exact isNewest_nil k
  | cons x l ih =>
    obtain ⟨hx, hl⟩ := pairwise_cons.1 h
    rw [forall_mem_cons] at hp
    rcases lt_trichotomy (key x) k with hlt | heq | hgt
    · rw [find?_cons_of_neg fun hpx => hlt.not_ge (hp.1.1 hpx)]
      exact (ih hl hp.2).cons hlt.ne
    · rw [find?_cons_of_pos (hp.1.2 heq.ge), Option.filter_some_pos ((hq x).2 heq)]
      refine ⟨fun y hy => ?_, fun y hy hyk => ⟨x, rfl, ?_⟩⟩
      · rw [← Option.some.inj hy]
        exact ⟨mem_cons_self, heq⟩
      · rcases mem_cons.1 hy with rfl | hy
        · exact le_rfl
        · rcases hx y hy with hxy | ⟨-, hle⟩
          · exact absurd (heq.trans hyk.symm) hxy.ne
          · exact hle
    · rw [find?_cons_of_pos (hp.1.2 hgt.le),
        Option.filter_some_neg (Bool.eq_false_iff.2 fun hqx => hgt.ne' ((hq x).1 hqx))]
      refine ⟨fun y hy => (nomatch hy), fun y hy hyk => ?_⟩
      rcases mem_cons.1 hy with rfl | hy
      · exact absurd hyk hgt.ne'
      · rcases hx y hy with hxy | ⟨hxy, -⟩
        · exact absurd hyk (hgt.trans hxy).ne'
        · exact absurd (hxy.trans hyk) hgt.ne'

/-- The elements without those that are hidden by an earlier one: after an element with
the key `k` those up to `k`. -/
def firsts (key : α → κ) : Option κ → List α → List α
  | _, [] => []
  | skip, x :: l =>
    if skip.any fun k => decide (key x ≤ k) then firsts key skip l
    else x :: firsts key (some (key x)) l

structure Firsts (key : α → κ) (seq : α → ℕ) (skip : Option κ) (l r : List α) : Prop where
  ascending : r.Pairwise fun x y => key x < key y
  newest : ∀ x ∈ r, (∀ k ∈ skip, k < key x) ∧ IsNewest key seq l (key x) (some x)
  covers : ∀ y ∈ l, (∀ k ∈ skip, k < key y) → ∃ x ∈ r, key x = key y

theorem Firsts.congr {skip : Option κ} {l' r : List α} (h : Firsts key seq skip l r)
    (hl : ∀ x, x ∈ l ↔ x ∈ l') : Firsts key seq skip l' r where
  ascending := h.ascending
  newest := fun x hx => ⟨(h.newest x hx).1, (h.newest x hx).2.congr fun y _ => hl y⟩
  covers := fun y hy => h.covers y ((hl y).2 hy)

theorem Ordered.firsts (h : Ordered key seq l) (skip : Option κ) :
    Firsts key seq skip l (firsts key skip l) := by
  induction l generalizing skip with
  | nil =>
    exact ⟨List.Pairwise.nil, fun _ hx => absurd hx not_mem_nil,
      fun _ hy => absurd hy not_mem_nil⟩
  | cons x l ih =>
    obtain ⟨hx, hl⟩ := pairwise_cons.1 h
    rw [Newest.firsts]
    by_cases hskip : (skip.any fun k => decide (key x ≤ k)) = true
    · rw [if_pos hskip]
      obtain ⟨k, hk, hle⟩ := (Option.any_eq_true _ _).1 hskip
      have hhidden : ∀ y, (∀ k ∈ skip, k < key y) → key x ≠ key y := fun y hy heq =>
        absurd (hy k hk) (heq ▸ of_decide_eq_true hle).not_gt
      have hih := ih hl skip
      refine ⟨hih.ascending, fun y hy => ⟨(hih.newest y hy).1, ?_⟩, fun y hy hyk => ?_⟩
      · exact (hih.newest y hy).2.cons (hhidden y (hih.newest y hy).1)
      · rcases mem_cons.1 hy with rfl | hy
        · exact absurd rfl (hhidden y hyk)
        · exact hih.covers y hy hyk
    · rw [if_neg hskip]
      have hshown : ∀ k ∈ skip, k < key x := fun k hk => not_le.1 fun hle =>
        hskip ((Option.any_eq_true _ _).2 ⟨k, hk, decide_eq_true hle⟩)
      have hih := ih hl (some (key x))
      have hafter : ∀ y ∈ Newest.firsts key (some (key x)) l, key x < key y := fun y hy =>
        (hih.newest y hy).1 (key x) rfl
      refine ⟨pairwise_cons.2 ⟨hafter, hih.ascending⟩, fun y hy => ?_, fun y hy hyk => ?_⟩
      · rcases mem_cons.1 hy with rfl | hy
        · refine ⟨hshown, fun z hz => ?_, fun z hz hzy => ⟨y, rfl, ?_⟩⟩
          · rw [← Option.some.inj hz]
            exact ⟨mem_cons_self, rfl⟩
          · rcases mem_cons.1 hz with rfl | hz
            · exact le_rfl
            · rcases hx z hz with hlt | ⟨-, hle⟩
              · exact absurd hzy hlt.ne'
              · exact hle
        · exact ⟨fun k hk => (hshown k hk).trans (hafter y hy),
            (hih.newest y hy).2.cons (hafter y hy).ne⟩
      · rcases mem_cons.1 hy with rfl | hy
        · exact ⟨y, mem_cons_self, rfl⟩
        · rcases hx y hy with hlt | ⟨heq, -⟩
          · obtain ⟨z, hz, hzy⟩ := hih.covers y hy fun k hk => by
              rwa [← Option.some.inj hk]
            exact ⟨z, mem_cons_of_mem x hz, hzy⟩
          · exact ⟨x, mem_cons_self, heq⟩

end Ordered

end Newest
