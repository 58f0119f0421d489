import Mathlib.Data.List.Basic

/-!
# Cursors over ascending lists

A cursor that is moved forward by one, or to the first element that is not below a
bound. What is left of the list is all that matters of its position.
-/

/-- The operations of a cursor with states in `σ`. -/
structure Cursor (σ : Type*) where
  next : σ → Bool × σ
  seek : σ → ℕ → Bool × σ
  at' : σ → ℕ

namespace Cursor

variable {σ : Type*}

/-- What the operations do to what is left: `fresh s l` is a state before the first
`next` over a list `l`, and `here s l` one in which `l` is left, its head the element
at the cursor. After a result of `false` the cursor is not used again. -/
structure Lawful (c : Cursor σ) (fresh here : σ → List ℕ → Prop) : Prop where
  next_fresh : ∀ {s l}, fresh s l → (c.next s).1 = !l.isEmpty ∧ (l ≠ [] → here (c.next s).2 l)
  next_here : ∀ {s x l}, here s (x :: l) →
    (c.next s).1 = !l.isEmpty ∧ (l ≠ [] → here (c.next s).2 l)
  seek_here : ∀ {s l} (v : ℕ), here s l →
    (c.seek s v).1 = !(l.dropWhile (· < v)).isEmpty ∧
      (l.dropWhile (· < v) ≠ [] → here (c.seek s v).2 (l.dropWhile (· < v)))
  at_here : ∀ {s x l}, here s (x :: l) → c.at' s = x

structure Walks (c : Cursor σ) (fresh here : σ → List ℕ → Prop) : Prop where
  next_fresh : ∀ {s l}, fresh s l → (c.next s).1 = !l.isEmpty ∧ (l ≠ [] → here (c.next s).2 l)
  next_here : ∀ {s x l}, here s (x :: l) →
    (c.next s).1 = !l.isEmpty ∧ (l ≠ [] → here (c.next s).2 l)
  at_here : ∀ {s x l}, here s (x :: l) → c.at' s = x

/-- What a call of `seek` returns when it stops at the first element of `left` that is not
below the bound. -/
structure Seeks (at' : σ → ℕ) (left : List ℕ) (v : ℕ) (r : Bool × σ) : Prop where
  found_iff : r.1 = true ↔ ∃ x ∈ left, v ≤ x
  least : r.1 = true → at' r.2 ∈ left ∧ v ≤ at' r.2 ∧ ∀ x ∈ left, v ≤ x → at' r.2 ≤ x

/-- The elements a loop over `next` reads, at most `fuel` of them. -/
def readLoop (c : Cursor σ) : ℕ → σ → List ℕ
  | 0, _ => []
  | fuel + 1, s =>
    if (c.next s).1 then c.at' (c.next s).2 :: c.readLoop fuel (c.next s).2 else []

theorem Walks.readLoop_eq {c : Cursor σ} {fresh here : σ → List ℕ → Prop}
    (h : c.Walks fresh here) {fuel : ℕ} {s : σ} {l : List ℕ} (hfuel : l.length < fuel)
    (hnext : (c.next s).1 = !l.isEmpty ∧ (l ≠ [] → here (c.next s).2 l)) :
    c.readLoop fuel s = l := by
  induction fuel generalizing s l with
  | zero => exact absurd hfuel (Nat.not_lt_zero _)
  | succ fuel ih =>
    obtain ⟨hfound, hhere⟩ := hnext
    cases l with
    | nil => simp [readLoop, hfound]
    | cons x l =>
      have hx := hhere (List.cons_ne_nil x l)
      have hrest := ih (Nat.lt_of_succ_lt_succ hfuel) (h.next_here hx)
      simp [readLoop, hfound, h.at_here hx, hrest]

theorem Walks.readLoop_fresh {c : Cursor σ} {fresh here : σ → List ℕ → Prop}
    (h : c.Walks fresh here) {fuel : ℕ} {s : σ} {l : List ℕ} (hs : fresh s l)
    (hfuel : l.length < fuel) : c.readLoop fuel s = l :=
  h.readLoop_eq hfuel (h.next_fresh hs)

end Cursor

section Ascending

variable {l : List ℕ} {v x : ℕ}

theorem mem_dropWhile_lt_iff (h : l.Pairwise (· < ·)) :
    x ∈ l.dropWhile (· < v) ↔ x ∈ l ∧ v ≤ x := by
  induction l with
  | nil => simp
  | cons y l ih =>
    rw [List.pairwise_cons] at h
    by_cases hy : y < v
    · rw [List.dropWhile_cons_of_pos (by simpa using hy), ih h.2, List.mem_cons]
      constructor
      · rintro ⟨hx, hv⟩
        exact ⟨Or.inr hx, hv⟩
      · rintro ⟨rfl | hx, hv⟩
        · exact absurd hy (Nat.not_lt.2 hv)
        · exact ⟨hx, hv⟩
    · rw [List.dropWhile_cons_of_neg (by simpa using hy)]
      refine ⟨fun hx => ⟨hx, ?_⟩, And.left⟩
      rcases List.mem_cons.1 hx with rfl | hx
      · exact Nat.not_lt.1 hy
      · exact Nat.le_trans (Nat.not_lt.1 hy) (Nat.le_of_lt (h.1 x hx))

theorem pairwise_dropWhile (h : l.Pairwise (· < ·)) :
    (l.dropWhile (· < v)).Pairwise (· < ·) :=
  h.sublist (List.dropWhile_sublist _)

theorem dropWhile_eq_or_length_lt :
    l.dropWhile (· < v) = l ∨ (l.dropWhile (· < v)).length < l.length := by
  cases l with
  | nil => exact Or.inl rfl
  | cons y l =>
    by_cases hy : y < v
    · rw [List.dropWhile_cons_of_pos (by simpa using hy)]
      exact Or.inr (Nat.lt_succ_of_le (List.dropWhile_sublist _).length_le)
    · exact Or.inl (List.dropWhile_cons_of_neg (by simpa using hy))

theorem Cursor.seeks_of_dropWhile {σ : Type*} {at' : σ → ℕ} (hasc : l.Pairwise (· < ·))
    {r : Bool × σ} (hfound : r.1 = !(l.dropWhile (· < v)).isEmpty)
    (hat : ∀ x l', l.dropWhile (· < v) = x :: l' → at' r.2 = x) : Cursor.Seeks at' l v r := by
  cases hdrop : l.dropWhile (· < v) with
  | nil =>
    have hnone : ¬ ∃ x ∈ l, v ≤ x := by
      rintro ⟨x, hx⟩
      exact List.not_mem_nil (hdrop ▸ (mem_dropWhile_lt_iff hasc).2 hx)
    rw [hdrop] at hfound
    exact ⟨iff_of_false (by simp [hfound]) hnone, fun h => absurd h (by simp [hfound])⟩
  | cons x l' =>
    have hx := (mem_dropWhile_lt_iff hasc).1 (hdrop ▸ List.mem_cons_self : x ∈ _)
    have hasc' : (x :: l').Pairwise (· < ·) := hdrop ▸ pairwise_dropWhile hasc
    rw [hdrop] at hfound
    refine ⟨iff_of_true hfound ⟨x, hx⟩, fun _ => ?_⟩
    rw [hat x l' hdrop]
    refine ⟨hx.1, hx.2, fun y hy hv => ?_⟩
    have hy' : y ∈ x :: l' := hdrop ▸ (mem_dropWhile_lt_iff hasc).2 ⟨hy, hv⟩
    rcases List.mem_cons.1 hy' with rfl | hy'
    · exact Nat.le_refl _
    · exact Nat.le_of_lt ((List.pairwise_cons.1 hasc').1 y hy')

theorem dropWhile_append_eq {l' : List ℕ} (hl : ∀ x ∈ l, x < v) (hl' : ∀ x ∈ l', v ≤ x) :
    (l ++ l').dropWhile (· < v) = l' := by
  rw [List.dropWhile_append_of_pos (by simpa using hl)]
  cases l' with
  | nil => rfl
  | cons y l' =>
    exact List.dropWhile_cons_of_neg (by simpa using hl' y List.mem_cons_self)

end Ascending
