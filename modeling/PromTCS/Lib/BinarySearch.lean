import Mathlib.Order.Nat

/-!
# Binary search

`search p fuel low high` is the loop that looks for the first position from `low` on
at which `p` holds, and returns `high` if there is none. It needs `p` to hold from its
first position on; `fuel` bounds the rounds by the length of the interval.
-/

namespace BinarySearch

def search (p : ℕ → Bool) : ℕ → ℕ → ℕ → ℕ
  | 0, low, _ => low
  | fuel + 1, low, high =>
    if low < high then
      let mid := low + (high - low) / 2
      if p mid then search p fuel low mid else search p fuel (mid + 1) high
    else low

/-- The position `r` splits the interval: `p` fails before it and holds from it on. -/
structure Splits (p : ℕ → Bool) (low high r : ℕ) : Prop where
  low_le : low ≤ r
  le_high : r ≤ high
  before : ∀ i, low ≤ i → i < r → p i = false
  from_on : ∀ i, r ≤ i → i < high → p i = true

theorem Splits.le_iff {p : ℕ → Bool} {low high r : ℕ} (h : Splits p low high r) {i : ℕ}
    (hlow : low ≤ i) (hhigh : i < high) : r ≤ i ↔ p i = true := by
  constructor
  · intro hle
    exact h.from_on i hle hhigh
  · intro hp
    by_contra hlt
    rw [h.before i hlow (Nat.lt_of_not_le hlt)] at hp
    exact nomatch hp

theorem splits_empty (p : ℕ → Bool) (r : ℕ) : Splits p r r r :=
  ⟨le_rfl, le_rfl, fun _ h₁ h₂ => absurd h₁ (Nat.not_le.2 h₂),
    fun _ h₁ h₂ => absurd h₁ (Nat.not_le.2 h₂)⟩

theorem splits_search {p : ℕ → Bool} {fuel low high : ℕ} (hfuel : high - low ≤ fuel)
    (hle : low ≤ high) (hmono : ∀ i j, i ≤ j → j < high → p i = true → p j = true) :
    Splits p low high (search p fuel low high) := by
  induction fuel generalizing low high with
  | zero =>
    have heq : high = low := by omega
    rw [heq]
    exact splits_empty p low
  | succ fuel ih =>
    rw [search]
    by_cases hlt : low < high
    · simp only [if_pos hlt]
      have hmid : low + (high - low) / 2 < high := by omega
      generalize hm : low + (high - low) / 2 = mid at hmid
      have hlow : low ≤ mid := by omega
      by_cases hp : p mid = true
      · rw [if_pos hp]
        have h := ih (by omega) hlow fun i j hij hj => hmono i j hij (hj.trans hmid)
        refine ⟨h.low_le, h.le_high.trans hmid.le, h.before, fun i hri hi => ?_⟩
        by_cases him : i < mid
        · exact h.from_on i hri him
        · exact hmono mid i (Nat.le_of_not_lt him) hi hp
      · rw [if_neg hp]
        have h := ih (by omega) hmid hmono
        refine ⟨(Nat.le_succ_of_le hlow).trans h.low_le, h.le_high, fun i hli hir => ?_,
          h.from_on⟩
        by_cases him : i ≤ mid
        · exact Bool.eq_false_iff.2 fun hpi => hp (hmono i mid him hmid hpi)
        · exact h.before i (Nat.lt_of_not_le him) hir
    · rw [if_neg hlt]
      have heq : high = low := by omega
      rw [heq]
      exact splits_empty p low

end BinarySearch
