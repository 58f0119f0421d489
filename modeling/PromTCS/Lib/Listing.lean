import Mathlib.Data.List.Sort
import Mathlib.Logic.Function.Basic

/-!
# Listings of a finite map

A map with finitely many entries is listed by its entries in ascending order of their
keys. The listing is unique, so its length counts the entries.
-/

/-- `l` lists the entries of `f` by ascending key. -/
structure ListsMap {K X : Type*} [LinearOrder K] (l : List (K × X)) (f : K → Option X) : Prop where
  ascending : l.Pairwise fun a b => a.1 < b.1
  mem_iff : ∀ {k x}, (k, x) ∈ l ↔ f k = some x

namespace ListsMap

open List Function

/-- The entries of `f` under the keys `ks`. -/
def listing {K X : Type*} (ks : List K) (f : K → Option X) : List (K × X) :=
  ks.filterMap fun k => (f k).map (Prod.mk k)

variable {K X : Type*} [LinearOrder K] {l l' l₁ l₂ : List (K × X)} {f : K → Option X} {k : K}
  {x y : X}

theorem nil : ListsMap ([] : List (K × X)) fun _ => none where
  ascending := List.Pairwise.nil
  mem_iff := by simp

theorem nodup (h : ListsMap l f) : l.Nodup :=
  h.ascending.imp fun hlt heq => absurd (congrArg Prod.fst heq) hlt.ne

theorem nodup_keys (h : ListsMap l f) : (l.map Prod.fst).Nodup :=
  pairwise_map.2 (h.ascending.imp ne_of_lt)

theorem eq (h : ListsMap l f) (h' : ListsMap l' f) : l = l' := by
  have hperm : l.Perm l' := by
    rw [perm_ext_iff_of_nodup h.nodup h'.nodup]
    intro e
    rw [h.mem_iff, h'.mem_iff]
  exact hperm.eq_of_pairwise (fun a b _ _ hab hba => absurd hab hba.asymm)
    h.ascending h'.ascending

theorem map_eq {g : K → Option X} (h : ListsMap l f) (h' : ListsMap l g) : f = g := by
  funext k
  exact Option.ext fun x => h.mem_iff.symm.trans h'.mem_iff

theorem mem_keys (h : ListsMap l f) : k ∈ l.map Prod.fst ↔ f k ≠ none := by
  rw [mem_map, Option.ne_none_iff_exists']
  constructor
  · rintro ⟨⟨k', x⟩, hmem, rfl⟩
    exact ⟨x, h.mem_iff.1 hmem⟩
  · rintro ⟨x, hx⟩
    exact ⟨(k, x), h.mem_iff.2 hx, rfl⟩

theorem exists_split (h : ListsMap l f) (hk : f k = some x) : ∃ l₁ l₂, l = l₁ ++ (k, x) :: l₂ :=
  append_of_mem (h.mem_iff.2 hk)

theorem insert (h : ListsMap (l₁ ++ l₂) f) (h₁ : ∀ e ∈ l₁, e.1 < k) (h₂ : ∀ e ∈ l₂, k < e.1) :
    ListsMap (l₁ ++ (k, x) :: l₂) (update f k (some x)) where
  ascending := by
    have hasc := pairwise_append.1 h.ascending
    refine pairwise_append.2 ⟨hasc.1, pairwise_cons.2 ⟨h₂, hasc.2.1⟩, ?_⟩
    intro a ha b hb
    rcases mem_cons.1 hb with rfl | hb
    · exact h₁ a ha
    · exact hasc.2.2 a ha b hb
  mem_iff {k' x'} := by
    have hmem : (k', x') ∈ l₁ ++ (k, x) :: l₂ ↔ (k' = k ∧ x' = x) ∨ (k', x') ∈ l₁ ++ l₂ := by
      simp only [mem_append, mem_cons, Prod.mk.injEq, or_left_comm]
    rw [hmem, h.mem_iff]
    by_cases hk : k' = k
    · have hnone : f k ≠ some x' := by
        intro hf
        rcases mem_append.1 (h.mem_iff.2 hf) with hmem | hmem
        · exact lt_irrefl _ (h₁ _ hmem)
        · exact lt_irrefl _ (h₂ _ hmem)
      simp only [hk, true_and, update_self, hnone, or_false, Option.some.injEq, eq_comm]
    · simp only [hk, false_and, false_or, update_of_ne hk]

theorem filter_ne (h : ListsMap l f) (k : K) :
    ListsMap (l.filter fun e => e.1 ≠ k) (update f k none) where
  ascending := h.ascending.filter _
  mem_iff {k' x'} := by
    rw [mem_filter, h.mem_iff]
    by_cases hk : k' = k
    · simp [hk]
    · simp [hk]

section

variable (h : ListsMap (l₁ ++ (k, x) :: l₂) f)
include h

theorem lt_of_split :
    (∀ e ∈ l₁, e.1 < k) ∧ ∀ e ∈ l₂, k < e.1 := by
  obtain ⟨-, hasc, hcross⟩ := pairwise_append.1 h.ascending
  exact ⟨fun e he => hcross e he _ mem_cons_self, (pairwise_cons.1 hasc).1⟩

theorem erase :
    ListsMap (l₁ ++ l₂) (update f k none) := by
  have h₁ : l₁.filter (fun e => e.1 ≠ k) = l₁ :=
    filter_eq_self.2 fun e he => decide_eq_true (h.lt_of_split.1 e he).ne
  have h₂ : l₂.filter (fun e => e.1 ≠ k) = l₂ :=
    filter_eq_self.2 fun e he => decide_eq_true (h.lt_of_split.2 e he).ne'
  have hrest := h.filter_ne k
  rwa [filter_append, h₁, filter_cons_of_neg (by simp), h₂] at hrest

theorem replace :
    ListsMap (l₁ ++ (k, y) :: l₂) (update f k (some y)) := by
  have hnew := h.erase.insert (x := y) h.lt_of_split.1 h.lt_of_split.2
  rwa [update_idem] at hnew

end

theorem lt_findIdx (hasc : l.Pairwise fun a b => a.1 < b.1) (hk : ∀ e ∈ l, e.1 ≠ k) :
    (∀ e ∈ l.take (l.findIdx fun e => k < e.1), e.1 < k) ∧
      ∀ e ∈ l.drop (l.findIdx fun e => k < e.1), k < e.1 := by
  induction l with
  | nil => simp
  | cons a l ih =>
    rw [pairwise_cons] at hasc
    rw [forall_mem_cons] at hk
    rw [findIdx_cons]
    by_cases hlt : k < a.1
    · simp only [hlt, decide_true, cond_true, take_zero, drop_zero,
        forall_mem_cons, true_and]
      exact ⟨fun e he => absurd he not_mem_nil, fun e he => hlt.trans (hasc.1 e he)⟩
    · simp only [hlt, decide_false, cond_false, take_succ_cons, drop_succ_cons,
        forall_mem_cons]
      have hrest := ih hasc.2 hk.2
      exact ⟨⟨lt_of_le_of_ne (not_lt.1 hlt) hk.1, hrest.1⟩, hrest.2⟩

theorem insert_findIdx (h : ListsMap l f) (hk : f k = none) :
    ListsMap (l.take (l.findIdx fun e => k < e.1) ++ (k, x) :: l.drop (l.findIdx fun e => k < e.1))
      (update f k (some x)) := by
  have hne : ∀ e ∈ l, e.1 ≠ k := by
    rintro ⟨k', x'⟩ he rfl
    simp [h.mem_iff.1 he] at hk
  have hlt := lt_findIdx h.ascending hne
  refine insert ?_ hlt.1 hlt.2
  rwa [take_append_drop]

theorem listing_of_all {ks : List K} (hks : ks.Pairwise (· < ·)) (hall : ∀ k, k ∈ ks)
    (f : K → Option X) : ListsMap (listing ks f) f where
  ascending := by
    refine hks.filterMap _ ?_
    intro k k' hlt e he e' he'
    obtain ⟨x, -, rfl⟩ := Option.map_eq_some_iff.1 he
    obtain ⟨x', -, rfl⟩ := Option.map_eq_some_iff.1 he'
    exact hlt
  mem_iff {k x} := by
    simp only [listing, mem_filterMap, Option.map_eq_some_iff, Prod.mk.injEq]
    constructor
    · rintro ⟨k', -, x', hx, rfl, rfl⟩
      exact hx
    · exact fun hx => ⟨k, hall k, x, hx, rfl, rfl⟩

end ListsMap
