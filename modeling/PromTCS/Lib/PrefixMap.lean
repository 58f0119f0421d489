import Mathlib.Data.List.Infix
import Mathlib.Logic.Function.Basic

/-!
# Maps with words as keys

A radix tree divides a map with words as keys. The keys below a node all begin with the
word of the node, and a node at which they branch holds the value of that word itself and
one map for each letter that follows.
-/

namespace PrefixMap

open List Function

variable {α V : Type*}

/-- All keys of `m` begin with `p`. -/
def Under (p : List α) (m : List α → Option V) : Prop :=
  ∀ k, m k ≠ none → p <+: k

theorem Under.mono {p p' : List α} {m : List α → Option V} (h : Under p m) (hp : p' <+: p) :
    Under p' m :=
  fun k hk => hp.trans (h k hk)

theorem Under.eq_none {p k : List α} {m : List α → Option V} (h : Under p m) (hk : ¬ p <+: k) :
    m k = none := by
  by_contra hne
  exact hk (h k hne)

theorem getElem?_of_isPrefix {p k : List α} {a : α} (h : p ++ [a] <+: k) : k[p.length]? = some a := by
  obtain ⟨r, rfl⟩ := h
  simp

theorem append_singleton_isPrefix {p k : List α} {a : α} (h : p <+: k) (ha : k[p.length]? = some a) :
    p ++ [a] <+: k := by
  obtain ⟨r, rfl⟩ := h
  cases r with
  | nil => simp at ha
  | cons b r =>
    rw [getElem?_append_right le_rfl, Nat.sub_self, getElem?_cons_zero,
      Option.some.injEq] at ha
    exact ⟨r, by simp [ha]⟩

variable [DecidableEq α]

/-! ## One key -/

def single (k : List α) (x : V) : List α → Option V :=
  update (fun _ => none) k (some x)

theorem single_apply (k k' : List α) (x : V) :
    single k x k' = if k' = k then some x else none :=
  update_apply _ _ _ _

theorem eq_of_single_ne_none {k k' : List α} {x : V} (h : single k x k' ≠ none) : k' = k := by
  by_contra hne
  exact h (by rw [single_apply, if_neg hne])

theorem under_single {p k : List α} (h : p <+: k) (x : V) : Under p (single k x) := by
  intro k' hk'
  rw [eq_of_single_ne_none hk']
  exact h

theorem update_single_self (k : List α) (x : V) (v : Option V) :
    update (single k x) k v = update (fun _ => none) k v :=
  update_idem _ _ _

/-! ## Branches -/

/-- The map that has the value `v` for `p` and is divided by the letter after `p`. -/
def branch (p : List α) (v : Option V) (ms : α → List α → Option V) (k : List α) : Option V :=
  match k[p.length]? with
  | some a => ms a k
  | none => if k = p then v else none

variable {p k : List α} {v w : Option V} {ms : α → List α → Option V} {a : α}

theorem branch_of_getElem? (h : k[p.length]? = some a) : branch p v ms k = ms a k := by
  simp only [branch, h]

theorem branch_of_length_le (h : k.length ≤ p.length) :
    branch p v ms k = if k = p then v else none := by
  simp only [branch, getElem?_eq_none h]

theorem branch_self (p : List α) (v : Option V) (ms : α → List α → Option V) :
    branch p v ms p = v := by
  rw [branch_of_length_le le_rfl, if_pos rfl]

theorem branch_of_length_lt (h : k.length < p.length) : branch p v ms k = none := by
  rw [branch_of_length_le h.le, if_neg]
  rintro rfl
  exact lt_irrefl _ h

theorem of_branch_ne_none (h : branch p v ms k ≠ none) :
    (k = p ∧ v ≠ none) ∨ ∃ a, k[p.length]? = some a ∧ ms a k ≠ none := by
  cases hget : k[p.length]? with
  | some a => exact Or.inr ⟨a, rfl, by rwa [branch_of_getElem? hget] at h⟩
  | none =>
    rw [branch_of_length_le (List.getElem?_eq_none_iff.1 hget)] at h
    by_cases hk : k = p
    · rw [if_pos hk] at h
      exact Or.inl ⟨hk, h⟩
    · exact absurd (if_neg hk) h

theorem branch_of_isPrefix (h : p ++ [a] <+: k) : branch p v ms k = ms a k :=
  branch_of_getElem? (getElem?_of_isPrefix h)

theorem under_branch (h : ∀ a, Under (p ++ [a]) (ms a)) : Under p (branch p v ms) := by
  intro k hk
  rcases of_branch_ne_none hk with ⟨rfl, -⟩ | ⟨a, -, hms⟩
  · exact prefix_rfl
  · exact (prefix_append p [a]).trans (h a k hms)

theorem update_branch_self (p : List α) (v w : Option V) (ms : α → List α → Option V) :
    update (branch p v ms) p w = branch p w ms := by
  funext k
  by_cases hk : k = p
  · rw [hk, update_self, branch_self]
  · rw [update_of_ne hk]
    cases hget : k[p.length]? with
    | some a => rw [branch_of_getElem? hget, branch_of_getElem? hget]
    | none =>
      have hle := List.getElem?_eq_none_iff.1 hget
      rw [branch_of_length_le hle, branch_of_length_le hle, if_neg hk, if_neg hk]

theorem update_branch_child (h : k[p.length]? = some a) (v w : Option V)
    (ms : α → List α → Option V) :
    update (branch p v ms) k w =
      branch p v (update ms a (update (ms a) k w)) := by
  funext k'
  by_cases hk : k' = k
  · rw [hk, update_self, branch_of_getElem? h, update_self, update_self]
  · rw [update_of_ne hk]
    cases hget : k'[p.length]? with
    | none =>
      have hle := List.getElem?_eq_none_iff.1 hget
      rw [branch_of_length_le hle, branch_of_length_le hle]
    | some b =>
      rw [branch_of_getElem? hget, branch_of_getElem? hget]
      by_cases hb : b = a
      · rw [hb, update_self, update_of_ne hk]
      · rw [update_of_ne hb]

theorem branch_update (p : List α) (v : Option V) (ms : α → List α → Option V) (a : α)
    (m : List α → Option V) (k : List α) :
    branch p v (update ms a m) k =
      if k[p.length]? = some a then m k else branch p v ms k := by
  cases hget : k[p.length]? with
  | none =>
    have hle := List.getElem?_eq_none_iff.1 hget
    rw [branch_of_length_le hle, branch_of_length_le hle]
    exact (if_neg nofun).symm
  | some b =>
    rw [branch_of_getElem? hget, branch_of_getElem? hget]
    by_cases hb : b = a
    · rw [hb, update_self, if_pos rfl]
    · rw [update_of_ne hb, if_neg fun heq => hb (Option.some.inj heq)]

theorem branch_eq_child (h : Under (p ++ [a]) (ms a)) (hms : ∀ b ≠ a, ms b = fun _ => none) :
    branch p none ms = ms a := by
  funext k
  cases hget : k[p.length]? with
  | none =>
    have hle := List.getElem?_eq_none_iff.1 hget
    rw [branch_of_length_le hle, ite_self]
    refine (h.eq_none fun hpre => ?_).symm
    rw [getElem?_of_isPrefix hpre] at hget
    cases hget
  | some b =>
    rw [branch_of_getElem? hget]
    by_cases hb : b = a
    · rw [hb]
    · rw [hms b hb]
      refine (h.eq_none fun hpre => hb ?_).symm
      rw [getElem?_of_isPrefix hpre] at hget
      exact (Option.some.inj hget).symm

theorem branch_eq_value (hms : ∀ b, ms b = fun _ => none) :
    branch p v ms = update (fun _ => none) p v := by
  funext k
  rw [update_apply]
  cases hget : k[p.length]? with
  | none => rw [branch_of_length_le (List.getElem?_eq_none_iff.1 hget)]
  | some b =>
    rw [branch_of_getElem? hget, hms, if_neg]
    rintro rfl
    simp at hget

theorem branch_empty (p : List α) :
    branch p none (fun _ _ => none) = fun _ : List α => (none : Option V) := by
  rw [branch_eq_value fun _ => rfl]
  exact update_eq_self p (fun _ => none)

/-! ## Where two words part -/

def commonLen : List α → List α → ℕ
  | a :: l, b :: l' => if a = b then commonLen l l' + 1 else 0
  | _, _ => 0

theorem commonLen_le_left (l l' : List α) : commonLen l l' ≤ l.length := by
  induction l generalizing l' with
  | nil => simp [commonLen]
  | cons a l ih =>
    cases l' with
    | nil => simp [commonLen]
    | cons b l' =>
      rw [commonLen]
      split
      · exact Nat.succ_le_succ (ih l')
      · exact Nat.zero_le _

theorem take_commonLen (l l' : List α) : l.take (commonLen l l') = l'.take (commonLen l l') := by
  induction l generalizing l' with
  | nil => simp [commonLen]
  | cons a l ih =>
    cases l' with
    | nil => simp [commonLen]
    | cons b l' =>
      rw [commonLen]
      split
      · rename_i hab
        rw [take_succ_cons, take_succ_cons, hab, ih l']
      · simp

theorem getElem?_commonLen_ne (l l' : List α) (h : commonLen l l' < l.length) :
    l[commonLen l l']? ≠ l'[commonLen l l']? := by
  induction l generalizing l' with
  | nil => simp at h
  | cons a l ih =>
    cases l' with
    | nil => simp [commonLen]
    | cons b l' =>
      rw [commonLen] at h ⊢
      split
      · rename_i hab
        rw [if_pos hab] at h
        simpa using ih l' (Nat.lt_of_succ_lt_succ h)
      · simpa using ‹¬ a = b›

theorem commonLen_eq_length_iff {l l' : List α} : commonLen l l' = l.length ↔ l <+: l' := by
  constructor
  · intro h
    have htake := take_commonLen l l'
    rw [h, take_length] at htake
    exact htake ▸ take_prefix _ _
  · rintro ⟨r, rfl⟩
    by_contra hne
    have hlt := lt_of_le_of_ne (commonLen_le_left l (l ++ r)) hne
    exact getElem?_commonLen_ne l (l ++ r) hlt (getElem?_append_left hlt).symm

theorem commonLen_take_append (l k r : List α) :
    commonLen (k.take l.length) (l ++ r) = commonLen l k := by
  induction l generalizing k with
  | nil => simp [commonLen]
  | cons a l ih =>
    cases k with
    | nil => simp [commonLen]
    | cons b k =>
      rw [length_cons, take_succ_cons, cons_append, commonLen, commonLen, ih]
      by_cases hab : a = b
      · rw [if_pos hab, if_pos hab.symm]
      · rw [if_neg hab, if_neg (Ne.symm hab)]

end PrefixMap
