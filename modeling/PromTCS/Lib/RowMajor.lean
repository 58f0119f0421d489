import Mathlib.Data.List.ProdSigma

/-!
# Matrices kept row by row

A matrix whose rows and columns are counted from one is kept in one array, and two
nested loops visit a rectangle of it. A change of the number of columns moves every
cell, so the array is filled again.
-/

namespace RowMajor

open List

variable {σ β : Type*}

/-- The numbers from `a` to `b`, as a loop with `<=` visits them. -/
def upTo (a b : ℕ) : List ℕ :=
  List.range' a (b + 1 - a)

variable {i stride j : ℕ}

@[simp] theorem mem_upTo {a b : ℕ} : i ∈ upTo a b ↔ a ≤ i ∧ i ≤ b := by
  rw [upTo, mem_range'_1]
  omega

def forEach (rows columns : List ℕ) (step : ℕ → ℕ → σ → σ) (s : σ) : σ :=
  rows.foldl (fun s i => columns.foldl (fun s j => step i j s) s) s

theorem forEach_eq_foldl (rows columns : List ℕ) (step : ℕ → ℕ → σ → σ) (s : σ) :
    forEach rows columns step s =
      (rows ×ˢ columns).foldl (fun s p => step p.1 p.2 s) s := by
  induction rows generalizing s with
  | nil => rfl
  | cons i rows ih =>
    rw [product_cons, foldl_append, foldl_map, ← ih]
    rfl

/-- The cell of row `i` and column `j`. -/
def cell (stride i j : ℕ) : ℕ :=
  (i - 1) * stride + (j - 1)

theorem cell_lt {rows : ℕ} (hi : 1 ≤ i) (hi' : i ≤ rows) (hj : 1 ≤ j) (hj' : j ≤ stride) :
    cell stride i j < rows * stride := by
  have hrow : (i - 1 + 1) * stride ≤ rows * stride := Nat.mul_le_mul_right _ (by omega)
  rw [Nat.succ_mul] at hrow
  unfold cell
  omega

theorem cell_inj {i' j' : ℕ} (hi : 1 ≤ i) (hj : 1 ≤ j) (hj' : j ≤ stride) (hi₂ : 1 ≤ i')
    (hj₂ : 1 ≤ j') (hj₂' : j' ≤ stride) (h : cell stride i j = cell stride i' j') :
    i = i' ∧ j = j' := by
  have hpos : 0 < stride := by omega
  have hrow : i - 1 = i' - 1 := by
    have hdiv := congrArg (· / stride) h
    simpa [cell, Nat.mul_comm _ stride, Nat.mul_add_div hpos,
      Nat.div_eq_of_lt (show j - 1 < stride by omega),
      Nat.div_eq_of_lt (show j' - 1 < stride by omega)] using hdiv
  rw [cell, cell, hrow] at h
  omega

/-- The rectangle of `rows` and `columns` is written with the values of `f`. -/
def fill (stride : ℕ) (f : ℕ → ℕ → β) (rows columns : List ℕ) (cells : List β) : List β :=
  forEach rows columns (fun i j cells => cells.set (cell stride i j) (f i j)) cells

@[simp] theorem length_fill (stride : ℕ) (f : ℕ → ℕ → β) (rows columns : List ℕ)
    (cells : List β) : (fill stride f rows columns cells).length = cells.length := by
  rw [fill, forEach_eq_foldl]
  induction rows ×ˢ columns generalizing cells with
  | nil => rfl
  | cons p ps ih => rw [foldl_cons, ih, length_set]

theorem getElem?_fill {f : ℕ → ℕ → β} {rows columns : List ℕ} {cells : List β}
    (hrows : ∀ i ∈ rows, 1 ≤ i) (hcolumns : ∀ j ∈ columns, 1 ≤ j ∧ j ≤ stride) (hi : 1 ≤ i)
    (hj : 1 ≤ j) (hj' : j ≤ stride) (hlt : cell stride i j < cells.length) :
    (fill stride f rows columns cells)[cell stride i j]? =
      if i ∈ rows ∧ j ∈ columns then some (f i j) else cells[cell stride i j]? := by
  have hin : ∀ p ∈ rows ×ˢ columns, 1 ≤ p.1 ∧ 1 ≤ p.2 ∧ p.2 ≤ stride := fun p hp =>
    have h := mem_product.mp hp
    ⟨hrows p.1 h.1, hcolumns p.2 h.2⟩
  simp only [fill, forEach_eq_foldl, ← mem_product]
  generalize rows ×ˢ columns = ps at hin
  induction ps generalizing cells with
  | nil => simp
  | cons p ps ih =>
    have hp := hin p mem_cons_self
    rw [foldl_cons, ih (by rwa [length_set])
      (fun q hq => hin q (mem_cons_of_mem _ hq))]
    by_cases hps : (i, j) ∈ ps
    · rw [if_pos hps, if_pos (mem_cons_of_mem _ hps)]
    by_cases heq : (i, j) = p
    · subst heq
      rw [if_neg hps, if_pos mem_cons_self, getElem?_set_self hlt]
    · have hne : cell stride p.1 p.2 ≠ cell stride i j := fun h =>
        have hij := cell_inj hp.1 hp.2.1 hp.2.2 hi hj hj' h
        heq (Prod.ext hij.1.symm hij.2.symm)
      have hcons : (i, j) ∉ p :: ps := fun h => (mem_cons.mp h).elim heq hps
      rw [if_neg hps, if_neg hcons, getElem?_set_ne hne]

theorem getElem?_fill_upTo {f : ℕ → ℕ → β} {a b c d : ℕ} {cells : List β} (ha : 1 ≤ a) (hc : 1 ≤ c)
    (hd : d ≤ stride) (hi : 1 ≤ i) (hj : 1 ≤ j) (hj' : j ≤ stride)
    (hlt : cell stride i j < cells.length) :
    (fill stride f (upTo a b) (upTo c d) cells)[cell stride i j]? =
      if (a ≤ i ∧ i ≤ b) ∧ (c ≤ j ∧ j ≤ d) then some (f i j)
      else cells[cell stride i j]? := by
  have hrows : ∀ i ∈ upTo a b, 1 ≤ i := fun i hi =>
    Nat.le_trans ha (mem_upTo.mp hi).1
  have hcolumns : ∀ j ∈ upTo c d, 1 ≤ j ∧ j ≤ stride := fun j hj =>
    ⟨Nat.le_trans hc (mem_upTo.mp hj).1, Nat.le_trans (mem_upTo.mp hj).2 hd⟩
  rw [getElem?_fill hrows hcolumns hi hj hj' hlt]
  simp only [mem_upTo]

theorem getElem?_flatMap {α : Type*} {f : α → List β} {l : List α}
    (hf : ∀ x ∈ l, (f x).length = stride) (j : ℕ) (hi : i < stride) :
    (l.flatMap f)[stride * j + i]? = l[j]?.bind fun x => (f x)[i]? := by
  induction l generalizing j with
  | nil => rfl
  | cons x l ih =>
    rw [forall_mem_cons] at hf
    rw [flatMap_cons]
    cases j with
    | zero =>
      rw [Nat.mul_zero, Nat.zero_add, getElem?_append_left (by omega)]
      rfl
    | succ j =>
      have hindex : stride * (j + 1) + i = (f x).length + (stride * j + i) := by
        rw [hf.1, Nat.mul_succ]
        omega
      rw [hindex, getElem?_append_right (Nat.le_add_right _ _), Nat.add_sub_cancel_left,
        ih hf.2]
      rfl

end RowMajor
