import Mathlib.Data.List.Basic
import Mathlib.Order.Basic

/-!
# Iterators

An iterator is a state with two functions: `next` goes to the next element, and is `none` when
there is none, and `read` shows the current one. `Yields` lists what is shown up to the end.
-/

namespace Iteration

variable {σ α : Type*}

def taken (call : σ → Bool × σ) (s : σ) : Option σ :=
  if (call s).1 then some (call s).2 else none

variable (next : σ → Option σ) (read : σ → α)

/-- Calls of `next` up to the first that fails show the elements of the list. -/
def Yields : σ → List α → Prop
  | s, [] => next s = none
  | s, a :: l => ∃ s', next s = some s' ∧ read s' = a ∧ Yields s' l

variable {next read}

theorem Yields.exists_cons {s s' : σ} {l : List α} (h : Yields next read s l)
    (hs : next s = some s') : ∃ l', l = read s' :: l' ∧ Yields next read s' l' := by
  cases l with
  | nil => exact absurd (hs.symm.trans h) (Option.some_ne_none s')
  | cons a l =>
    obtain ⟨s₁, hs₁, rfl, hl⟩ := h
    obtain rfl := Option.some.inj (hs.symm.trans hs₁)
    exact ⟨l, rfl, hl⟩

theorem Yields.unique {s : σ} {l l' : List α} (h : Yields next read s l)
    (h' : Yields next read s l') : l = l' := by
  induction l generalizing s l' with
  | nil =>
    cases l' with
    | nil => rfl
    | cons a l' =>
      obtain ⟨s', hs', -⟩ := h'
      exact absurd (hs'.symm.trans h) (Option.some_ne_none s')
  | cons a l ih =>
    obtain ⟨s₁, hs₁, rfl, hl⟩ := h
    obtain ⟨l'', rfl, hl'⟩ := h'.exists_cons hs₁
    rw [ih hl hl']

end Iteration
