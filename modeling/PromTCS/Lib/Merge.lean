import Mathlib.Data.List.Lex
import Mathlib.Data.Prod.Lex
import Mathlib.Order.Basic

/-!
# Merging sorted sequences

`mergeAll` runs over several sequences at once and always takes the smallest of
their first elements, the leftmost of several smallest ones. Elements are compared
by a key. What comes out is a permutation of everything that goes in, and sorted when
every sequence is.
-/

namespace Merge

open List

variable {α β : Type*} [LinearOrder β] (key : α → β)

def Sorted (l : List α) : Prop :=
  l.Pairwise fun x y => key x ≤ key y

instance (l : List α) : Decidable (Sorted key l) :=
  inferInstanceAs (Decidable (l.Pairwise fun x y => key x ≤ key y))

variable {x : α} {l : List α} {cs : List (List α)}

theorem rel_of_getElem? {R : α → α → Prop} (h : l.Pairwise R) {i j : ℕ} {y : α} (hij : i < j)
    (hi : l[i]? = some x) (hj : l[j]? = some y) : R x y := by
  obtain ⟨hi', rfl⟩ := List.getElem?_eq_some_iff.1 hi
  obtain ⟨hj', rfl⟩ := List.getElem?_eq_some_iff.1 hj
  exact pairwise_iff_getElem.1 h i j hi' hj' hij

def popSmallest : List (List α) → Option (α × List (List α))
  | [] => none
  | [] :: cs => (popSmallest cs).map fun (x, cs') => (x, [] :: cs')
  | (x :: xs) :: cs =>
    match popSmallest cs with
    | none => some (x, xs :: cs)
    | some (y, cs') => if key y < key x then some (y, (x :: xs) :: cs') else some (x, xs :: cs)

/-- The loop over all elements; `fuel` is their number. -/
def mergeLoop : ℕ → List (List α) → List α
  | 0, _ => []
  | fuel + 1, cs =>
    match popSmallest key cs with
    | none => []
    | some (x, cs') => x :: mergeLoop fuel cs'

def mergeAll (cs : List (List α)) : List α :=
  mergeLoop key cs.flatten.length cs

variable {key}

theorem flatten_eq_nil_of_popSmallest (h : popSmallest key cs = none) : cs.flatten = [] := by
  induction cs with
  | nil => rfl
  | cons c cs ih =>
    cases c with
    | nil =>
      rw [popSmallest, Option.map_eq_none_iff] at h
      rw [flatten_cons, ih h, nil_append]
    | cons x xs =>
      rw [popSmallest] at h
      split at h
      · exact nomatch h
      · split at h <;> exact nomatch h

structure Popped (key : α → β) (cs : List (List α)) (x : α) (cs' : List (List α)) : Prop where
  perm : cs.flatten.Perm (x :: cs'.flatten)
  sorted : (∀ c ∈ cs, Sorted key c) → ∀ c ∈ cs', Sorted key c
  least : (∀ c ∈ cs, Sorted key c) → ∀ y ∈ cs.flatten, key x ≤ key y

theorem Popped.head {xs : List α} (hle : (∀ c ∈ cs, Sorted key c) → ∀ y ∈ cs.flatten, key x ≤ key y) :
    Popped key ((x :: xs) :: cs) x (xs :: cs) where
  perm := List.Perm.refl _
  sorted := by
    intro h
    rw [forall_mem_cons] at h ⊢
    exact ⟨h.1.of_cons, h.2⟩
  least := by
    intro h y hy
    rw [forall_mem_cons] at h
    rw [flatten_cons, cons_append, mem_cons, mem_append] at hy
    rcases hy with rfl | hy | hy
    · exact le_rfl
    · exact rel_of_pairwise_cons h.1 hy
    · exact hle h.2 y hy

theorem Popped.tail {c : List α} {cs' : List (List α)} (h : Popped key cs x cs')
    (hle : Sorted key c → ∀ y ∈ c, key x ≤ key y) : Popped key (c :: cs) x (c :: cs') where
  perm := by
    rw [flatten_cons, flatten_cons]
    exact (h.perm.append_left c).trans perm_middle
  sorted := by
    intro hs
    rw [forall_mem_cons] at hs ⊢
    exact ⟨hs.1, h.sorted hs.2⟩
  least := by
    intro hs y hy
    rw [forall_mem_cons] at hs
    rw [flatten_cons, mem_append] at hy
    rcases hy with hy | hy
    · exact hle hs.1 y hy
    · exact h.least hs.2 y hy

theorem popped_of_popSmallest {cs' : List (List α)} (h : popSmallest key cs = some (x, cs')) :
    Popped key cs x cs' := by
  induction cs generalizing x cs' with
  | nil => exact nomatch h
  | cons c cs ih =>
    cases c with
    | nil =>
      rw [popSmallest, Option.map_eq_some_iff] at h
      obtain ⟨⟨y, ds⟩, hpop, heq⟩ := h
      obtain ⟨rfl, rfl⟩ := Prod.mk.inj heq
      exact (ih hpop).tail fun _ z hz => absurd hz not_mem_nil
    | cons z zs =>
      rw [popSmallest] at h
      split at h
      · rename_i hnone
        obtain ⟨rfl, rfl⟩ := Prod.mk.inj (Option.some.inj h)
        refine Popped.head fun _ y hy => ?_
        rw [flatten_eq_nil_of_popSmallest hnone] at hy
        exact absurd hy not_mem_nil
      · rename_i y ds hpop
        have hy := ih hpop
        split at h
        · rename_i hlt
          obtain ⟨rfl, rfl⟩ := Prod.mk.inj (Option.some.inj h)
          refine hy.tail fun hs w hw => hlt.le.trans ?_
          rcases mem_cons.1 hw with rfl | hw
          · exact le_rfl
          · exact rel_of_pairwise_cons hs hw
        · rename_i hnot
          obtain ⟨rfl, rfl⟩ := Prod.mk.inj (Option.some.inj h)
          exact Popped.head fun hs w hw => (not_lt.1 hnot).trans (hy.least hs w hw)

theorem perm_mergeLoop {fuel : ℕ} (h : cs.flatten.length = fuel) :
    (mergeLoop key fuel cs).Perm cs.flatten := by
  induction fuel generalizing cs with
  | zero => rw [length_eq_zero_iff.1 h, mergeLoop]
  | succ fuel ih =>
    rw [mergeLoop]
    split
    · rename_i hnone
      rw [flatten_eq_nil_of_popSmallest hnone]
    · rename_i x cs' hpop
      have hx := (popped_of_popSmallest hpop).perm
      have hlen := hx.length_eq
      rw [h, length_cons] at hlen
      exact ((ih (Nat.succ.inj hlen).symm).cons x).trans hx.symm

theorem perm_mergeAll (cs : List (List α)) : (mergeAll key cs).Perm cs.flatten :=
  perm_mergeLoop rfl

theorem sorted_mergeLoop {fuel : ℕ} (h : cs.flatten.length = fuel) (hs : ∀ c ∈ cs, Sorted key c) :
    Sorted key (mergeLoop key fuel cs) := by
  induction fuel generalizing cs with
  | zero => exact List.Pairwise.nil
  | succ fuel ih =>
    rw [mergeLoop]
    split
    · exact List.Pairwise.nil
    · rename_i x cs' hpop
      have hx := popped_of_popSmallest hpop
      have hlen := hx.perm.length_eq
      rw [h, length_cons] at hlen
      have hfuel : cs'.flatten.length = fuel := (Nat.succ.inj hlen).symm
      refine List.Pairwise.cons (fun y hy => ?_) (ih hfuel (hx.sorted hs))
      have hy' := (perm_mergeLoop hfuel).subset hy
      exact hx.least hs y (hx.perm.symm.subset (mem_cons_of_mem x hy'))

theorem sorted_mergeAll (hs : ∀ c ∈ cs, Sorted key c) : Sorted key (mergeAll key cs) :=
  sorted_mergeLoop rfl hs

theorem Sorted.lt_of_mem_dropWhile (h : Sorted key l) {k : β}
    (hx : x ∈ l.dropWhile fun y => decide (key y ≤ k)) : k < key x := by
  induction l with
  | nil => exact absurd hx not_mem_nil
  | cons y l ih =>
    obtain ⟨hy, hl⟩ := pairwise_cons.1 h
    rw [dropWhile_cons] at hx
    by_cases hle : key y ≤ k
    · rw [if_pos (decide_eq_true hle)] at hx
      exact ih hl hx
    · rw [if_neg fun h => hle (of_decide_eq_true h)] at hx
      rcases mem_cons.1 hx with rfl | hx
      · exact not_le.1 hle
      · exact (not_le.1 hle).trans_le (hy x hx)

theorem Sorted.mem_takeWhile_iff (h : Sorted key l) {k : β} (hle : ∀ x ∈ l, k ≤ key x)
    {p : α → Bool} (hp : ∀ x ∈ l, (p x = true ↔ key x = k)) (x : α) :
    x ∈ l.takeWhile p ↔ x ∈ l ∧ key x = k := by
  induction l with
  | nil => simp
  | cons y l ih =>
    obtain ⟨hy, hl⟩ := pairwise_cons.1 h
    rw [forall_mem_cons] at hle hp
    rw [takeWhile_cons]
    by_cases hyk : key y = k
    · rw [if_pos (hp.1.2 hyk), mem_cons, mem_cons, ih hl hle.2 hp.2]
      constructor
      · rintro (rfl | ⟨hx, hxk⟩)
        · exact ⟨Or.inl rfl, hyk⟩
        · exact ⟨Or.inr hx, hxk⟩
      · rintro ⟨rfl | hx, hxk⟩
        · exact Or.inl rfl
        · exact Or.inr ⟨hx, hxk⟩
    · rw [if_neg fun hpy => hyk (hp.1.1 hpy)]
      have hlt : k < key y := lt_of_le_of_ne hle.1 (Ne.symm hyk)
      refine ⟨fun hx => absurd hx not_mem_nil, ?_⟩
      rintro ⟨hx, hxk⟩
      rcases mem_cons.1 hx with rfl | hx
      · exact absurd hxk hyk
      · exact absurd hxk (hlt.trans_le (hy x hx)).ne'

end Merge
