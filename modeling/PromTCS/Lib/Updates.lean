import Mathlib.Data.List.Nodup
import Mathlib.Logic.Function.Basic

/-!
# Writes to places

A list of writes, each of a value to a place, is carried out from the left. If no two of them
are to the same place then their order does not matter.
-/

namespace Updates

open List Function

variable {κ α : Type*} [DecidableEq κ]

def apply (f : κ → α) (ws : List (κ × α)) : κ → α :=
  ws.foldl (fun f w => update f w.1 w.2) f

variable {f : κ → α} {ws ws' : List (κ × α)} {k : κ} {a : α}

theorem apply_cons (f : κ → α) (w : κ × α) (ws : List (κ × α)) :
    apply f (w :: ws) = apply (update f w.1 w.2) ws := rfl

theorem apply_append (f : κ → α) (ws ws' : List (κ × α)) :
    apply f (ws ++ ws') = apply (apply f ws) ws' :=
  foldl_append

theorem apply_of_notMem (h : k ∉ ws.map Prod.fst) : apply f ws k = f k := by
  induction ws generalizing f with
  | nil => rfl
  | cons w ws ih =>
    rw [map_cons, mem_cons, not_or] at h
    rw [apply_cons, ih h.2, update_of_ne h.1]

theorem apply_of_mem (hnd : (ws.map Prod.fst).Nodup) (h : (k, a) ∈ ws) : apply f ws k = a := by
  induction ws generalizing f with
  | nil => cases h
  | cons w ws ih =>
    rw [map_cons, nodup_cons] at hnd
    rw [apply_cons]
    rcases mem_cons.1 h with rfl | h
    · rw [apply_of_notMem hnd.1, update_self]
    · exact ih hnd.2 h

theorem apply_eq_or_mem (f : κ → α) (ws : List (κ × α)) (k : κ) :
    apply f ws k = f k ∨ (k, apply f ws k) ∈ ws := by
  induction ws generalizing f with
  | nil => exact Or.inl rfl
  | cons w ws ih =>
    rw [apply_cons]
    rcases ih (update f w.1 w.2) with hold | hmem
    · rw [hold]
      by_cases hk : k = w.1
      · rw [hk, update_self]
        exact Or.inr mem_cons_self
      · exact Or.inl (update_of_ne hk _ _)
    · exact Or.inr (mem_cons_of_mem w hmem)

theorem apply_perm (hnd : (ws.map Prod.fst).Nodup) (h : ws.Perm ws') :
    apply f ws = apply f ws' := by
  funext k
  by_cases hk : k ∈ ws.map Prod.fst
  · obtain ⟨⟨k', a⟩, hmem, rfl⟩ := mem_map.1 hk
    rw [apply_of_mem hnd hmem,
      apply_of_mem ((h.map Prod.fst).nodup_iff.1 hnd) (h.mem_iff.1 hmem)]
  · rw [apply_of_notMem hk, apply_of_notMem fun hk' => hk ((h.map Prod.fst).mem_iff.2 hk')]

end Updates
