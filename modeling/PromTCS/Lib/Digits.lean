import Mathlib.Data.List.Lex
import Mathlib.Order.Nat

/-!
# Digits

The number that a sequence of digits stands for, the most significant digit first.
Sequences of one length that are ordered lexicographically are ordered by this number.
-/

namespace Digits

open List

variable {base : ℕ}

/-- The digits are appended to the number `n`. -/
def value (base n : ℕ) (digits : List ℕ) : ℕ :=
  digits.foldl (fun a d => a * base + d) n

variable {p q : List ℕ}

theorem value_lt_value (hlen : p.length = q.length) (hp : ∀ d ∈ p, d < base) {m n : ℕ} (h : m < n) :
    value base m p < value base n q := by
  induction p generalizing q m n with
  | nil =>
    rw [length_eq_zero_iff.1 hlen.symm]
    exact h
  | cons x p ih =>
    cases q with
    | nil => exact nomatch hlen
    | cons y q =>
      rw [forall_mem_cons] at hp
      refine ih (Nat.succ.inj hlen) hp.2 ?_
      calc m * base + x < m * base + base := Nat.add_lt_add_left hp.1 _
        _ = (m + 1) * base := (Nat.succ_mul m base).symm
        _ ≤ n * base := Nat.mul_le_mul_right base h
        _ ≤ n * base + y := Nat.le_add_right _ _

theorem value_le_value (hlen : p.length = q.length) (hp : ∀ d ∈ p, d < base) (n : ℕ) (h : p ≤ q) :
    value base n p ≤ value base n q := by
  induction p generalizing q n with
  | nil => rw [length_eq_zero_iff.1 hlen.symm]
  | cons x p ih =>
    cases q with
    | nil => exact nomatch hlen
    | cons y q =>
      rw [forall_mem_cons] at hp
      rcases h.lt_or_eq with hlt | heq
      · rcases cons_lt_cons_iff.1 hlt with hxy | ⟨rfl, hpq⟩
        · exact (value_lt_value (Nat.succ.inj hlen) hp.2 (Nat.add_lt_add_left hxy _)).le
        · exact ih (Nat.succ.inj hlen) hp.2 _ hpq.le
      · rw [heq]

theorem append_lt_append (s t : List ℕ) (hlen : p.length = q.length) (h : p < q) :
    p ++ s < q ++ t := by
  induction p generalizing q with
  | nil =>
    rw [length_eq_zero_iff.1 hlen.symm] at h
    exact absurd h (lt_irrefl _)
  | cons x p ih =>
    cases q with
    | nil => exact nomatch hlen
    | cons y q =>
      rw [cons_append, cons_append, cons_lt_cons_iff]
      rcases cons_lt_cons_iff.1 h with hlt | ⟨heq, hlt⟩
      · exact Or.inl hlt
      · exact Or.inr ⟨heq, ih (Nat.succ.inj hlen) hlt⟩

theorem le_of_append_le {s t : List ℕ} (hlen : p.length = q.length) (h : p ++ s ≤ q ++ t) :
    p ≤ q := by
  by_contra hlt
  exact absurd h (append_lt_append _ _ hlen.symm (lt_of_not_ge hlt)).not_ge

theorem div_mul_add_mod (n m base : ℕ) : n / (m * base) * base + n / m % base = n / m := by
  rw [← Nat.div_div_eq_div_mul]
  exact Nat.div_add_mod' (n / m) base

end Digits
