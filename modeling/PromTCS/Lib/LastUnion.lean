import Mathlib.Data.List.Nodup
import Mathlib.Order.Lattice

/-!
# The union of ascending lists

Several lists are ascending by a key. Their union has every key once, with the element of the last
list that has the key. It begins with the smallest key of all, and goes on with the union of what
is left without that key.
-/

namespace LastUnion

open List

variable {α β : Type*} (key : α → β)

/-- `x` is in a list, and its key in no list behind it. -/
def Last (ls : List (List α)) (x : α) : Prop :=
  ∃ before l after, ls = before ++ l :: after ∧ x ∈ l ∧ ∀ l' ∈ after, ∀ y ∈ l', key y ≠ key x

structure IsUnion [LT β] (ls : List (List α)) (m : List α) : Prop where
  ascending : m.Pairwise fun x y => key x < key y
  mem_iff : ∀ x, x ∈ m ↔ Last key ls x

def without [DecidableEq β] (k : β) (ls : List (List α)) : List (List α) :=
  (ls.map (List.filter fun x => decide (key x ≠ k))).filter fun l => !l.isEmpty

variable {key}

theorem not_last_nil (x : α) : ¬ Last key [] x := by
  rintro ⟨before, l, after, h, -⟩
  exact absurd h.symm (append_ne_nil_of_right_ne_nil before (cons_ne_nil l after))

variable {ls : List (List α)} {x : α}

theorem last_cons {l : List α} :
    Last key (l :: ls) x ↔ Last key ls x ∨ (x ∈ l ∧ ∀ l' ∈ ls, ∀ y ∈ l', key y ≠ key x) := by
  constructor
  · rintro ⟨before, l₁, after, h, hx, hafter⟩
    cases before with
    | nil =>
      obtain ⟨rfl, rfl⟩ := List.cons.inj h
      exact Or.inr ⟨hx, hafter⟩
    | cons l₂ before =>
      obtain ⟨-, rfl⟩ := List.cons.inj h
      exact Or.inl ⟨before, l₁, after, rfl, hx, hafter⟩
  · rintro (⟨before, l₁, after, rfl, hx, hafter⟩ | ⟨hx, hafter⟩)
    · exact ⟨l :: before, l₁, after, rfl, hx, hafter⟩
    · exact ⟨[], l, ls, rfl, hx, hafter⟩

theorem Last.exists_mem (h : Last key ls x) : ∃ l ∈ ls, x ∈ l := by
  obtain ⟨before, l, after, rfl, hx, -⟩ := h
  exact ⟨l, mem_append_right _ mem_cons_self, hx⟩

theorem Last.unique [Preorder β] (hasc : ∀ l ∈ ls, l.Pairwise fun x y => key x < key y) {y : α}
    (hx : Last key ls x) (hy : Last key ls y) (h : key x = key y) : x = y := by
  induction ls with
  | nil => exact absurd hx (not_last_nil x)
  | cons l ls ih =>
    rcases last_cons.1 hx with hx | ⟨hxl, hxls⟩ <;> rcases last_cons.1 hy with hy | ⟨hyl, hyls⟩
    · exact ih (fun l' hl' => hasc l' (mem_cons_of_mem l hl')) hx hy
    · obtain ⟨l', hl', hxl'⟩ := hx.exists_mem
      exact absurd h (hyls l' hl' x hxl')
    · obtain ⟨l', hl', hyl'⟩ := hy.exists_mem
      exact absurd h.symm (hxls l' hl' y hyl')
    · have hnodup : (l.map key).Nodup :=
        pairwise_map.2 ((hasc l mem_cons_self).imp ne_of_lt)
      exact inj_on_of_nodup_map hnodup hxl hyl h

theorem last_filter : Last key (ls.filter fun l => !l.isEmpty) x ↔ Last key ls x := by
  induction ls with
  | nil => rfl
  | cons l ls ih =>
    have hmem : (∀ l' ∈ ls.filter fun l => !l.isEmpty, ∀ y ∈ l', key y ≠ key x) ↔
        ∀ l' ∈ ls, ∀ y ∈ l', key y ≠ key x := by
      constructor
      · intro h l' hl' y hy
        refine h l' (mem_filter.2 ⟨hl', ?_⟩) y hy
        rw [Bool.not_eq_true', isEmpty_eq_false_iff]
        exact ne_nil_of_mem hy
      · exact fun h l' hl' => h l' (mem_of_mem_filter hl')
    cases l with
    | nil =>
      rw [filter_cons_of_neg (by simp), ih, last_cons]
      simp
    | cons y l => rw [filter_cons_of_pos (by simp), last_cons, last_cons, ih, hmem]

theorem last_map_filter (p : β → Prop) [DecidablePred p] :
    Last key (ls.map (List.filter fun y => decide (p (key y)))) x ↔ Last key ls x ∧ p (key x) := by
  induction ls with
  | nil => exact ⟨fun h => absurd h (not_last_nil x), fun h => absurd h.1 (not_last_nil x)⟩
  | cons l ls ih =>
    rw [map_cons, last_cons, ih, last_cons]
    by_cases hx : p (key x)
    · have hmem : (∀ l' ∈ ls.map (List.filter fun y => decide (p (key y))), ∀ y ∈ l',
          key y ≠ key x) ↔ ∀ l' ∈ ls, ∀ y ∈ l', key y ≠ key x := by
        simp only [forall_mem_map, mem_filter, decide_eq_true_eq, and_imp]
        exact forall₂_congr fun l' _ => forall₂_congr fun y _ =>
          ⟨fun h heq => h (heq ▸ hx) heq, fun h _ => h⟩
      rw [hmem]
      simp [hx]
    · simp [hx]

theorem exists_last {l : List α} (hl : l ∈ ls) {y : α} (hy : y ∈ l) :
    ∃ x, Last key ls x ∧ key x = key y := by
  induction ls generalizing l y with
  | nil => exact absurd hl not_mem_nil
  | cons l₁ ls ih =>
    by_cases h : ∃ l' ∈ ls, ∃ z ∈ l', key z = key y
    · obtain ⟨l', hl', z, hz, heq⟩ := h
      obtain ⟨x, hx, hxz⟩ := ih hl' hz
      exact ⟨x, last_cons.2 (Or.inl hx), hxz.trans heq⟩
    · rcases mem_cons.1 hl with rfl | hl
      · exact ⟨y, last_cons.2 (Or.inr ⟨hy, fun l' hl' z hz heq => h ⟨l', hl', z, hz, heq⟩⟩), rfl⟩
      · exact absurd ⟨l, hl, y, hy, rfl⟩ h

section

variable [DecidableEq β]
  {ls : List (List α)}

theorem mem_of_mem_without {k : β} {l : List α} (h : l ∈ without key k ls) :
    ∃ l' ∈ ls, l'.filter (fun x => decide (key x ≠ k)) = l :=
  mem_map.1 (mem_of_mem_filter h)

theorem flatten_without (k : β) (ls : List (List α)) :
    (without key k ls).flatten = ls.flatten.filter fun x => decide (key x ≠ k) := by
  rw [without, flatten_filter_not_isEmpty, filter_flatten]

theorem length_flatten_without_lt {x : α} (h : Last key ls x) :
    (without key (key x) ls).flatten.length < ls.flatten.length := by
  obtain ⟨l, hl, hx⟩ := h.exists_mem
  rw [flatten_without, length_filter_lt_length_iff_exists]
  exact ⟨x, mem_flatten.2 ⟨l, hl, hx⟩, by simp⟩

theorem last_without {k : β} {x : α} :
    Last key (without key k ls) x ↔ Last key ls x ∧ key x ≠ k := by
  rw [without, last_filter, last_map_filter (· ≠ k)]

end

theorem IsUnion.cons [LinearOrder β] (hasc : ∀ l ∈ ls, l.Pairwise fun x y => key x < key y)
    (hx : Last key ls x) (hmin : ∀ l ∈ ls, ∀ y ∈ l, key x ≤ key y) {m : List α}
    (hm : IsUnion key (without key (key x) ls) m) : IsUnion key ls (x :: m) where
  ascending := by
    refine pairwise_cons.2 ⟨fun y hy => ?_, hm.ascending⟩
    obtain ⟨hlast, hne⟩ := last_without.1 ((hm.mem_iff y).1 hy)
    obtain ⟨l, hl, hyl⟩ := hlast.exists_mem
    exact lt_of_le_of_ne (hmin l hl y hyl) (Ne.symm hne)
  mem_iff y := by
    rw [mem_cons, hm.mem_iff, last_without]
    constructor
    · rintro (rfl | h)
      · exact hx
      · exact h.1
    · intro hy
      by_cases h : key y = key x
      · exact Or.inl (hy.unique hasc hx h)
      · exact Or.inr ⟨hy, h⟩

theorem isUnion_nil [LT β] : IsUnion key [] [] where
  ascending := List.Pairwise.nil
  mem_iff x := iff_of_false not_mem_nil (not_last_nil x)

theorem isUnion_filter [LT β] {m : List α} (h : IsUnion key (ls.filter fun l => !l.isEmpty) m) :
    IsUnion key ls m where
  ascending := h.ascending
  mem_iff x := (h.mem_iff x).trans last_filter

end LastUnion
