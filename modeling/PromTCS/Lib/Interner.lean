import Mathlib.Data.Finset.Card

/-!
# Interning

A table that gives the keys it meets consecutive numbers, from one on, and a key it
has met before the number it got then. Two keys never share a number.
-/

structure Interner (K : Type*) where
  table : K → Option ℕ
  count : ℕ

namespace Interner

open Function

variable {K : Type*}

def empty : Interner K where
  table := fun _ => none
  count := 0

def idOf (t : Interner K) (k : K) : ℕ :=
  (t.table k).getD (t.count + 1)

def intern [DecidableEq K] (t : Interner K) (k : K) : Interner K :=
  match t.table k with
  | some _ => t
  | none => { table := update t.table k (some (t.count + 1)), count := t.count + 1 }

structure Valid (t : Interner K) (keys : Finset K) : Prop where
  mem_iff : ∀ k, k ∈ keys ↔ ∃ n, t.table k = some n
  injective : ∀ {k k' n}, t.table k = some n → t.table k' = some n → k = k'
  pos : ∀ {k n}, t.table k = some n → 0 < n
  le : ∀ {k n}, t.table k = some n → n ≤ t.count
  count_eq : t.count = keys.card

theorem valid_empty : (empty : Interner K).Valid ∅ where
  mem_iff k := by simp [empty]
  injective h := by cases h
  pos h := by cases h
  le h := by cases h
  count_eq := rfl

variable {t : Interner K}

theorem idOf_of_some {k : K} {n : ℕ} (h : t.table k = some n) : t.idOf k = n := by
  simp only [idOf, h, Option.getD_some]

theorem idOf_of_none {k : K} (h : t.table k = none) : t.idOf k = t.count + 1 := by
  simp only [idOf, h, Option.getD_none]

theorem Valid.idOf_le {keys : Finset K} (h : t.Valid keys) (k : K) : t.idOf k ≤ t.count + 1 := by
  cases hk : t.table k with
  | none => rw [idOf_of_none hk]
  | some n =>
    rw [idOf_of_some hk]
    exact Nat.le_succ_of_le (h.le hk)

section Intern

variable [DecidableEq K]
  {t : Interner K} {k : K} {n : ℕ}

theorem intern_of_some (h : t.table k = some n) : t.intern k = t := by
  simp only [intern, h]

theorem intern_of_none (h : t.table k = none) :
    t.intern k =
      { table := update t.table k (some (t.count + 1)), count := t.count + 1 } := by
  simp only [intern, h]

theorem table_intern_self (t : Interner K) (k : K) : (t.intern k).table k = some (t.idOf k) := by
  cases h : t.table k with
  | none =>
    rw [intern_of_none h, idOf_of_none h]
    exact update_self _ _ _
  | some n => rw [intern_of_some h, idOf_of_some h, h]

theorem table_intern_of_some {k' : K} (h : t.table k' = some n) :
    (t.intern k).table k' = some n := by
  cases hk : t.table k with
  | some _ => rwa [intern_of_some hk]
  | none =>
    have hne : k' ≠ k := by
      rintro rfl
      rw [h] at hk
      cases hk
    rw [intern_of_none hk]
    exact (update_of_ne hne _ _).trans h

theorem table_intern_cases {k' : K} (h : (t.intern k).table k' = some n) :
    t.table k' = some n ∨ (t.table k = none ∧ k' = k ∧ n = t.count + 1) := by
  cases hk : t.table k with
  | some _ =>
    rw [intern_of_some hk] at h
    exact Or.inl h
  | none =>
    rw [intern_of_none hk] at h
    by_cases hkk : k' = k
    · subst hkk
      simp only [update_self, Option.some.injEq] at h
      exact Or.inr ⟨rfl, rfl, h.symm⟩
    · simp only [update_of_ne hkk] at h
      exact Or.inl h

theorem Valid.intern {keys : Finset K} (h : t.Valid keys) (k : K) :
    (t.intern k).Valid (insert k keys) := by
  cases hk : t.table k with
  | some n =>
    rw [intern_of_some hk, Finset.insert_eq_of_mem ((h.mem_iff k).2 ⟨n, hk⟩)]
    exact h
  | none =>
    rw [intern_of_none hk]
    have hnew : k ∉ keys := fun hmem => by
      obtain ⟨n, hn⟩ := (h.mem_iff k).1 hmem
      rw [hk] at hn
      cases hn
    have hcases : ∀ {a n}, update t.table k (some (t.count + 1)) a = some n →
        (a = k ∧ n = t.count + 1) ∨ (a ≠ k ∧ t.table a = some n) := by
      intro a n ha
      by_cases hak : a = k
      · subst hak
        rw [update_self, Option.some.injEq] at ha
        exact Or.inl ⟨rfl, ha.symm⟩
      · rw [update_of_ne hak] at ha
        exact Or.inr ⟨hak, ha⟩
    refine ⟨fun a => ?_, fun {a b n} ha hb => ?_, fun {a n} ha => ?_, fun {a n} ha => ?_, ?_⟩
    · by_cases hak : a = k
      · subst hak
        simp
      · simp only [Finset.mem_insert, hak, false_or, update_of_ne hak, h.mem_iff]
    · rcases hcases ha with ⟨rfl, rfl⟩ | ⟨-, ha'⟩
      · rcases hcases hb with ⟨rfl, -⟩ | ⟨-, hb'⟩
        · rfl
        · exact absurd (h.le hb') (Nat.not_succ_le_self _)
      · rcases hcases hb with ⟨rfl, rfl⟩ | ⟨-, hb'⟩
        · exact absurd (h.le ha') (Nat.not_succ_le_self _)
        · exact h.injective ha' hb'
    · rcases hcases ha with ⟨-, rfl⟩ | ⟨-, ha'⟩
      · exact Nat.succ_pos _
      · exact h.pos ha'
    · rcases hcases ha with ⟨-, rfl⟩ | ⟨-, ha'⟩
      · exact Nat.le_refl _
      · exact Nat.le_succ_of_le (h.le ha')
    · rw [Finset.card_insert_of_notMem hnew, h.count_eq]

theorem Valid.card_insert_of_none {keys : Finset K} (h : t.Valid keys) (hk : t.table k = none) :
    (insert k keys).card = t.count + 1 := by
  rw [← (h.intern k).count_eq, intern_of_none hk]

end Intern

end Interner
