import Mathlib.Algebra.Order.BigOperators.Group.Finset
import Mathlib.Data.Fintype.Basic

/-!
# Places and their occupants

A finite type of places, each empty or holding a number. The number of places that
hold a given number, and the number of places taken, change by one when a place is
filled or emptied.
-/

namespace Places

open Function

variable {α : Type*} [Fintype α]

/-- The number of places that hold `m`. -/
def occupants (f : α → Option ℕ) (m : ℕ) : ℕ :=
  (Finset.univ.filter fun a => f a = some m).card

def occupied (f : α → Option ℕ) : ℕ :=
  (Finset.univ.filter fun a => (f a).isSome).card

variable {f : α → Option ℕ} {a : α} {m : ℕ}

theorem occupants_update [DecidableEq α] (hf : f a = none) (m m' : ℕ) :
    occupants (update f a (some m)) m' = occupants f m' + if m = m' then 1 else 0 := by
  unfold occupants
  by_cases hm : m = m'
  · subst hm
    rw [if_pos rfl, ← Finset.card_insert_of_notMem (a := a) (by simp [hf])]
    congr 1
    ext x
    by_cases hx : x = a <;> simp [hx]
  · rw [if_neg hm]
    congr 1
    ext x
    by_cases hx : x = a <;> simp [hx, hf, hm]

theorem occupied_update [DecidableEq α] (hf : f a = none) (m : ℕ) :
    occupied (update f a (some m)) = occupied f + 1 := by
  unfold occupied
  rw [← Finset.card_insert_of_notMem (a := a) (by simp [hf])]
  congr 1
  ext x
  by_cases hx : x = a <;> simp [hx]

theorem occupants_release [DecidableEq α] (hf : f a = some m) (m' : ℕ) :
    occupants f m' = occupants (update f a none) m' + if m = m' then 1 else 0 := by
  rw [← occupants_update (update_self a none f), update_idem, ← hf,
    update_eq_self]

theorem occupied_release [DecidableEq α] (hf : f a = some m) :
    occupied f = occupied (update f a none) + 1 := by
  rw [← occupied_update (update_self a none f) m, update_idem, ← hf,
    update_eq_self]

theorem occupants_pos (hf : f a = some m) : 0 < occupants f m :=
  Finset.card_pos.2 ⟨a, by simp [hf]⟩

theorem eq_of_occupants_le_one {b : α} (hone : occupants f m ≤ 1) (ha : f a = some m)
    (hb : f b = some m) : a = b :=
  Finset.card_le_one.1 hone a (by simp [ha]) b (by simp [hb])

theorem occupied_le {n : ℕ} (hlt : ∀ m, 0 < occupants f m → m < n) (hone : ∀ m, occupants f m ≤ 1) :
    occupied f ≤ n := by
  rw [← Finset.card_range n]
  refine Finset.card_le_card_of_injOn (fun a => (f a).getD 0) ?_ ?_
  · intro a ha
    obtain ⟨m, hm⟩ := Option.isSome_iff_exists.1 (Finset.mem_filter.1 ha).2
    simpa [hm] using hlt m (occupants_pos hm)
  · intro a ha b hb hab
    obtain ⟨m, hm⟩ := Option.isSome_iff_exists.1 (Finset.mem_filter.1 ha).2
    obtain ⟨m', hm'⟩ := Option.isSome_iff_exists.1 (Finset.mem_filter.1 hb).2
    simp only [hm, hm', Option.getD_some] at hab
    subst hab
    exact Finset.card_le_one.1 (hone m) a (by simp [hm]) b (by simp [hm'])

theorem sum_occupants {n : ℕ} (hlt : ∀ m, 0 < occupants f m → m < n) :
    ∑ m ∈ Finset.range n, occupants f m = occupied f := by
  unfold occupied occupants
  rw [Finset.card_eq_sum_card_fiberwise (f := fun a => (f a).getD 0) (t := Finset.range n)]
  · refine Finset.sum_congr rfl fun m _ => congrArg Finset.card ?_
    ext a
    simp only [Finset.mem_filter, Finset.mem_univ, true_and]
    constructor
    · intro ha
      simp [ha]
    · rintro ⟨hsome, rfl⟩
      obtain ⟨m, hm⟩ := Option.isSome_iff_exists.1 hsome
      simp [hm]
  · intro a ha
    obtain ⟨m, hm⟩ := Option.isSome_iff_exists.1 (Finset.mem_filter.1 ha).2
    simpa [hm] using hlt m (occupants_pos hm)

end Places
