import Mathlib.Data.List.TakeWhile
import Mathlib.Order.Lattice
import PromTCS.Lib.RangeScan

/-!
# Seeking with a step back

The elements of an ordered list start at their keys and reach up to the next one. What reaches
behind `k` is found from the first element that is not below `k`, with one step back.
-/

namespace SeekBack

open List

variable {α β : Type*} [LinearOrder β] {key : α → β} {k : β} {l : List α}

/-- The elements from the first one that is not below `k` on. -/
def seek (key : α → β) (k : β) (l : List α) : List α :=
  l.dropWhile fun x => decide (key x < k)

def seekBack (key : α → β) (k : β) (l : List α) : List α :=
  (l.takeWhile fun x => decide (key x < k)).getLast?.toList ++ seek key k l

variable {x : α}

theorem mem_seek (hl : l.Pairwise fun x y => key x < key y) :
    x ∈ seek key k l ↔ x ∈ l ∧ k ≤ key x := by
  rw [seek, RangeScan.mem_dropWhile hl
    (fun hxy hy => decide_eq_true (hxy.trans (of_decide_eq_true hy))), decide_eq_false_iff_not,
    not_lt]

theorem seekBack_sublist (key : α → β) (k : β) (l : List α) :
    (seekBack key k l).Sublist l := by
  have hsplit : (l.takeWhile fun x => decide (key x < k)) ++ seek key k l = l :=
    takeWhile_append_dropWhile
  conv_rhs => rw [← hsplit]
  refine List.Sublist.append_right ?_ _
  cases hlast : (l.takeWhile fun x => decide (key x < k)).getLast? with
  | none => exact nil_sublist _
  | some z => exact singleton_sublist.2 (mem_of_getLast? hlast)

theorem mem_seekBack (hl : l.Pairwise fun x y => key x < key y) :
    x ∈ seekBack key k l ↔ x ∈ l ∧ ∀ y ∈ l, key x < key y → k ≤ key y := by
  have hbelow : ∀ y ∈ l.takeWhile fun x => decide (key x < k), key y < k := by
    intro y hy
    simpa using mem_takeWhile_imp hy
  have hsplit : (l.takeWhile fun x => decide (key x < k)) ++ seek key k l = l :=
    takeWhile_append_dropWhile
  have habove : ∀ y ∈ seek key k l, k ≤ key y := fun y hy => ((mem_seek hl).1 hy).2
  rw [seekBack, mem_append, Option.mem_toList]
  generalize l.takeWhile (fun x => decide (key x < k)) = front at hbelow hsplit ⊢
  have hfront : front.Pairwise fun x y => key x < key y := by
    rw [← hsplit] at hl
    exact (pairwise_append.1 hl).1
  constructor
  · rintro (hlast | hx)
    · obtain ⟨init, rfl⟩ := getLast?_eq_some_iff.1 hlast
      refine ⟨hsplit ▸ by simp, fun y hy hlt => ?_⟩
      rw [← hsplit] at hy
      rcases mem_append.1 hy with hy | hy
      · rcases mem_append.1 hy with hy | hy
        · have hyx := (pairwise_append.1 hfront).2.2 y hy x mem_cons_self
          exact absurd hlt hyx.not_gt
        · rw [mem_singleton.1 hy] at hlt
          exact absurd hlt (lt_irrefl _)
      · exact habove y hy
    · exact ⟨((mem_seek hl).1 hx).1, fun y _ hlt => (habove x hx).trans hlt.le⟩
  · rintro ⟨hx, hlater⟩
    rw [← hsplit] at hx
    refine (mem_append.1 hx).imp_left fun hx => ?_
    cases hlast : front.getLast? with
    | none =>
      rw [getLast?_eq_none_iff.1 hlast] at hx
      exact absurd hx not_mem_nil
    | some z =>
      obtain ⟨init, rfl⟩ := getLast?_eq_some_iff.1 hlast
      rcases mem_append.1 hx with hx | hx
      · have hz : z ∈ init ++ [z] := mem_append_right _ mem_cons_self
        have hxz := (pairwise_append.1 hfront).2.2 x hx z mem_cons_self
        have hkz := hlater z (hsplit ▸ mem_append_left _ hz) hxz
        exact absurd (hbelow z hz) hkz.not_gt
      · rw [mem_singleton.1 hx]

theorem le_of_seekBack_eq_cons (hl : l.Pairwise fun x y => key x < key y) {tail : List α}
    (h : seekBack key k l = x :: tail) {y : α} (hy : y ∈ tail) : k ≤ key y := by
  have hsub := seekBack_sublist key k l
  have hxy := (pairwise_cons.1 (h ▸ hl.sublist hsub)).1 y hy
  have hx : x ∈ seekBack key k l := h ▸ mem_cons_self
  exact ((mem_seekBack hl).1 hx).2 y (hsub.subset (h ▸ mem_cons_of_mem x hy)) hxy

end SeekBack
