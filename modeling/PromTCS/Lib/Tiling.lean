import Mathlib.Data.List.Basic

/-!
# Tilings of an interval

A list of half-open ranges that follow one another without a gap. Such ranges are
disjoint and cover the interval between the two ends.
-/

/-- The ranges lead from `a` to `c`. -/
inductive Tiles : ℕ → ℕ → List (ℕ × ℕ) → Prop
  | nil (a : ℕ) : Tiles a a []
  | cons {a b c : ℕ} {ranges : List (ℕ × ℕ)} (hab : a ≤ b) (htail : Tiles b c ranges) :
      Tiles a c ((a, b) :: ranges)

namespace Tiles

variable {a c : ℕ} {ranges : List (ℕ × ℕ)}

theorem le (h : Tiles a c ranges) : a ≤ c := by
  induction h with
  | nil a => exact Nat.le_refl a
  | cons hab _ ih => exact Nat.le_trans hab ih

theorem mem_iff (h : Tiles a c ranges) (i : ℕ) :
    (∃ r ∈ ranges, r.1 ≤ i ∧ i < r.2) ↔ a ≤ i ∧ i < c := by
  induction h with
  | nil a => simp
  | cons hab htail ih =>
    rw [List.exists_mem_cons_iff, ih]
    have hbc := htail.le
    constructor
    · rintro (⟨hle, hlt⟩ | ⟨hle, hlt⟩)
      · exact ⟨hle, Nat.lt_of_lt_of_le hlt hbc⟩
      · exact ⟨Nat.le_trans hab hle, hlt⟩
    · rintro ⟨hle, hlt⟩
      exact (Nat.lt_or_ge i _).imp (fun h => ⟨hle, h⟩) fun h => ⟨h, hlt⟩

theorem disjoint (h : Tiles a c ranges) :
    ranges.Pairwise fun r r' => ∀ i, ¬ ((r.1 ≤ i ∧ i < r.2) ∧ r'.1 ≤ i ∧ i < r'.2) := by
  induction h with
  | nil a => exact .nil
  | cons hab htail ih =>
    refine .cons (fun r hr i hi => ?_) ih
    have hbi := ((htail.mem_iff i).1 ⟨r, hr, hi.2⟩).1
    exact absurd hi.1.2 (Nat.not_lt.2 hbi)

theorem bounds (h : Tiles a c ranges) : ∀ r ∈ ranges, r.1 ≤ r.2 ∧ r.2 ≤ c := by
  induction h with
  | nil a => simp
  | cons hab htail ih =>
    intro r hr
    rcases List.mem_cons.1 hr with rfl | hr
    · exact ⟨hab, htail.le⟩
    · exact ih r hr

end Tiles
