import Mathlib.Data.List.Infix
import Mathlib.Order.Lattice

/-!
# Arrays changed in place

An array of a program has a fixed length, and an access outside it is a fault. The first
places of an array may hold a list, and the shifts by which an element enters or leaves it
are moves of the places behind.
-/

namespace InPlace

open List

variable {α ε : Type*} (fault : ε)

variable (xs : List α)

def read (i : ℕ) : Except ε α :=
  match xs[i]? with
  | some x => .ok x
  | none => .error fault

def write (i : ℕ) (x : α) : Except ε (List α) :=
  if i < xs.length then .ok (xs.set i x) else .error fault

/-- `ys` is moved to place `i`. -/
def copy (i : ℕ) (ys : List α) : Except ε (List α) :=
  if ys.length = 0 ∨ i + ys.length ≤ xs.length then
    .ok (xs.take i ++ ys ++ xs.drop (i + ys.length))
  else .error fault

/-- An element enters at place `i` of the first `n`. -/
def insertAt (n i : ℕ) (x : α) : Except ε (List α) := do
  let xs ← copy fault xs (i + 1) ((xs.drop i).take (n - i))
  write fault xs i x

/-- The element at place `i` of the first `n` leaves. -/
def eraseAt (n i : ℕ) : Except ε (List α) :=
  copy fault xs i ((xs.drop (i + 1)).take (n - 1 - i))

def writeAll (es : List (ℕ × α)) : Except ε (List α) :=
  es.foldlM (fun xs e => write fault xs e.1 e.2) xs

variable {fault}
  {xs ys : List α} {i : ℕ}

theorem read_eq_ok {x : α} (h : xs[i]? = some x) : read fault xs i = .ok x := by
  simp only [read, h]

theorem write_eq_ok (h : i < xs.length) (x : α) : write fault xs i x = .ok (xs.set i x) :=
  if_pos h

theorem copy_eq_ok (h : i + ys.length ≤ xs.length) :
    copy fault xs i ys = .ok (xs.take i ++ ys ++ xs.drop (i + ys.length)) :=
  if_pos (Or.inr h)

theorem copy_nil (xs : List α) (i : ℕ) : copy fault xs i [] = .ok xs := by
  rw [copy, if_pos (Or.inl length_nil), append_nil, length_nil, Nat.add_zero,
    take_append_drop]

theorem copy_zero_eq_ok (h : ys.length ≤ xs.length) :
    copy fault xs 0 ys = .ok (ys ++ xs.drop ys.length) := by
  rw [copy_eq_ok (by rwa [Nat.zero_add]), take_zero, nil_append, Nat.zero_add]

theorem insertAt_append (fault : ε) (ys₁ ys₂ rest : List α) (x r : α) :
    insertAt fault (ys₁ ++ ys₂ ++ r :: rest) (ys₁.length + ys₂.length) ys₁.length x =
      .ok (ys₁ ++ x :: ys₂ ++ rest) := by
  obtain ⟨z, t, hz⟩ : ∃ z t, ys₂ ++ r :: rest = z :: t :=
    exists_cons_of_ne_nil (by simp)
  have hmoved : ((ys₁ ++ ys₂ ++ r :: rest).drop ys₁.length).take
      (ys₁.length + ys₂.length - ys₁.length) = ys₂ := by
    rw [append_assoc, drop_left, Nat.add_sub_cancel_left, take_left]
  have htake : (ys₁ ++ ys₂ ++ r :: rest).take (ys₁.length + 1) = ys₁ ++ [z] := by
    rw [append_assoc, hz, take_length_add_append, take_succ_cons, take_zero]
  have hdrop : (ys₁ ++ ys₂ ++ r :: rest).drop (ys₁.length + 1 + ys₂.length) = rest := by
    rw [Nat.add_right_comm, ← length_append, drop_length_add_append,
      drop_succ_cons, drop_zero]
  have hcopy : copy fault (ys₁ ++ ys₂ ++ r :: rest) (ys₁.length + 1) ys₂ =
      .ok (ys₁ ++ [z] ++ ys₂ ++ rest) := by
    rw [copy_eq_ok (by simp only [length_append, length_cons]; omega), htake, hdrop]
  have hset : (ys₁ ++ [z] ++ ys₂ ++ rest).set ys₁.length x = ys₁ ++ x :: ys₂ ++ rest := by
    simp
  rw [insertAt, hmoved, hcopy]
  change write fault _ _ _ = _
  rw [write_eq_ok (by simp), hset]

theorem eraseAt_append (fault : ε) (ys₁ ys₂ rest : List α) (y : α) :
    ∃ r, eraseAt fault (ys₁ ++ y :: ys₂ ++ rest) (ys₁.length + (ys₂.length + 1)) ys₁.length =
      .ok (ys₁ ++ ys₂ ++ r :: rest) := by
  obtain ⟨r, hr⟩ : ∃ r, (y :: ys₂).drop ys₂.length = [r] := by
    refine length_eq_one_iff.1 ?_
    rw [length_drop, length_cons, Nat.add_sub_cancel_left]
  have hmoved : ((ys₁ ++ y :: ys₂ ++ rest).drop (ys₁.length + 1)).take
      (ys₁.length + (ys₂.length + 1) - 1 - ys₁.length) = ys₂ := by
    have hlen : ys₁.length + (ys₂.length + 1) - 1 - ys₁.length = ys₂.length := by omega
    rw [hlen, append_assoc, drop_length_add_append, cons_append,
      drop_succ_cons, drop_zero, take_left]
  have hdrop : (ys₁ ++ y :: ys₂ ++ rest).drop (ys₁.length + ys₂.length) = r :: rest := by
    rw [append_assoc, drop_length_add_append,
      drop_append_of_le_length (by simp), hr, singleton_append]
  refine ⟨r, ?_⟩
  rw [eraseAt, hmoved, copy_eq_ok (by simp only [length_append, length_cons]; omega),
    hdrop, append_assoc ys₁, take_left]

/-! ## A list in the first places -/

theorem insertAt_of_isPrefix (fault : ε) (hpre : ys <+: xs) (hlt : ys.length < xs.length)
    (hi : i ≤ ys.length) (x : α) :
    ∃ xs', insertAt fault xs ys.length i x = .ok xs' ∧ ys.take i ++ x :: ys.drop i <+: xs' ∧
      xs'.length = xs.length := by
  obtain ⟨rest, rfl⟩ := hpre
  cases rest with
  | nil => simp at hlt
  | cons r rest =>
    have hok := insertAt_append fault (ys.take i) (ys.drop i) rest x r
    rw [take_append_drop, ← length_append, take_append_drop, length_take,
      Nat.min_eq_left hi] at hok
    refine ⟨_, hok, prefix_append _ _, ?_⟩
    simp only [length_append, length_cons, length_take, length_drop]
    omega

theorem eraseAt_of_isPrefix (fault : ε) {ys₁ ys₂ : List α} {y : α} (hpre : ys₁ ++ y :: ys₂ <+: xs) :
    ∃ xs', eraseAt fault xs (ys₁ ++ y :: ys₂).length ys₁.length = .ok xs' ∧ ys₁ ++ ys₂ <+: xs' ∧
      xs'.length = xs.length := by
  obtain ⟨rest, rfl⟩ := hpre
  obtain ⟨r, hok⟩ := eraseAt_append fault ys₁ ys₂ rest y
  rw [← length_cons, ← length_append] at hok
  refine ⟨_, hok, prefix_append _ _, ?_⟩
  simp only [length_append, length_cons]
  omega

theorem set_of_isPrefix {ys₁ ys₂ : List α} {y : α} (hpre : ys₁ ++ y :: ys₂ <+: xs) (z : α) :
    ys₁ ++ z :: ys₂ <+: xs.set ys₁.length z := by
  obtain ⟨rest, rfl⟩ := hpre
  exact ⟨rest, by simp⟩

/-! ## Loops -/

theorem writeAll_eq_ok (fault : ε) {es : List (ℕ × α)} (hlt : ∀ e ∈ es, e.1 < xs.length)
    (hnodup : (es.map Prod.fst).Nodup) :
    ∃ xs', writeAll fault xs es = .ok xs' ∧ xs'.length = xs.length ∧
      (∀ e ∈ es, xs'[e.1]? = some e.2) ∧ ∀ i ∉ es.map Prod.fst, xs'[i]? = xs[i]? := by
  induction es generalizing xs with
  | nil => exact ⟨xs, rfl, rfl, fun e he => absurd he not_mem_nil, fun _ _ => rfl⟩
  | cons e es ih =>
    rw [map_cons, nodup_cons] at hnodup
    rw [forall_mem_cons] at hlt
    have hlt' : ∀ e' ∈ es, e'.1 < (xs.set e.1 e.2).length := by simpa using hlt.2
    obtain ⟨xs', hok, hlen, hmem, hother⟩ := ih hlt' hnodup.2
    refine ⟨xs', ?_, hlen.trans length_set, ?_, ?_⟩
    · rw [writeAll, foldlM_cons, write_eq_ok hlt.1]
      exact hok
    · rw [forall_mem_cons]
      refine ⟨?_, hmem⟩
      rw [hother _ hnodup.1, getElem?_set_self hlt.1]
    · intro i hi
      rw [map_cons, mem_cons, not_or] at hi
      rw [hother i hi.2, getElem?_set_ne (Ne.symm hi.1)]

end InPlace
