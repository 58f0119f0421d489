import Mathlib.Data.List.Perm.Basic
import Mathlib.Data.List.Basic

/-!
# A list cut into fibers

A list is cut into the elements of each of a number of keys, in the order of the keys. If every
element is of one key, the parts together are the list in another order.
-/

namespace Fibers

open List

variable {α κ : Type*} {p : κ → α → Bool}

theorem flatMap_filter_perm {keys : List κ} {l : List α}
    (hcovers : ∀ a ∈ l, ∃ k ∈ keys, p k a = true)
    (hdisjoint : keys.Pairwise fun k k' => ∀ a ∈ l, p k a = true → p k' a = false) :
    (keys.flatMap fun k => l.filter (p k)).Perm l := by
  induction keys generalizing l with
  | nil =>
    have hnil : l = [] := eq_nil_iff_forall_not_mem.2 fun a ha => by
      obtain ⟨k, hk, -⟩ := hcovers a ha
      exact not_mem_nil hk
    rw [hnil, flatMap_nil]
  | cons k keys ih =>
    obtain ⟨hfirst, hrest⟩ := pairwise_cons.1 hdisjoint
    -- The parts of the other keys are parts of what the first key leaves.
    have hsame : (keys.flatMap fun k' => l.filter (p k')) =
        keys.flatMap fun k' => (l.filter fun a => !p k a).filter (p k') := by
      refine flatMap_congr fun k' hk' => ?_
      rw [filter_filter]
      refine filter_congr fun a ha => ?_
      cases hk : p k a with
      | true => simp [hfirst k' hk' a ha hk]
      | false => simp
    have hleft : ((l.filter fun a => !p k a) : List α).Perm
        (keys.flatMap fun k' => (l.filter fun a => !p k a).filter (p k')) := by
      refine (ih (fun a ha => ?_) (hrest.imp fun h a ha => ?_)).symm
      · obtain ⟨hin, hnot⟩ := mem_filter.1 ha
        obtain ⟨k', hk', hp⟩ := hcovers a hin
        rcases mem_cons.1 hk' with rfl | hk'
        · simp [hp] at hnot
        · exact ⟨k', hk', hp⟩
      · exact h a (mem_filter.1 ha).1
    rw [flatMap_cons, hsame]
    exact (hleft.symm.append_left _).trans (filter_append_perm (p k) l)

end Fibers
