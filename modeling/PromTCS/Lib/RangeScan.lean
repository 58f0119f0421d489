import Mathlib.Data.List.Destutter

/-!
# Range scans

A scan of an ordered list passes over the elements below the range and goes on as long as the
elements are within it. Of what it meets a collector keeps only what differs from the element
kept last. If equal elements stand together, then every one is kept once and in order.
-/

namespace RangeScan

open List

variable {α β : Type*}

def scan (below inside : α → Bool) (l : List α) : List α :=
  (l.dropWhile below).takeWhile inside

variable {below inside : α → Bool} {l : List α} {r : α → α → Prop}

theorem scan_sublist (below inside : α → Bool) (l : List α) :
    (scan below inside l).Sublist l :=
  (takeWhile_sublist inside).trans (dropWhile_sublist below)

theorem dropWhile_eq_filter (hl : l.Pairwise r)
    (hbelow : ∀ {x y}, r x y → below y = true → below x = true) :
    l.dropWhile below = l.filter fun x => !below x := by
  induction l with
  | nil => rfl
  | cons y l ih =>
    obtain ⟨hy, hl⟩ := pairwise_cons.1 hl
    cases hb : below y with
    | true => rw [dropWhile_cons_of_pos hb, filter_cons_of_neg (by simp [hb]), ih hl]
    | false =>
      rw [dropWhile_cons_of_neg (by simp [hb])]
      refine (filter_eq_self.2 fun x hx => ?_).symm
      rcases mem_cons.1 hx with rfl | hx
      · rw [hb]
        rfl
      · cases hbx : below x with
        | false => rfl
        | true => rw [hbelow (hy x hx) hbx] at hb; cases hb

theorem takeWhile_eq_filter (hl : l.Pairwise r)
    (hinside : ∀ {x y}, r x y → inside y = true → inside x = true) :
    l.takeWhile inside = l.filter inside := by
  induction l with
  | nil => rfl
  | cons y l ih =>
    obtain ⟨hy, hl⟩ := pairwise_cons.1 hl
    cases hi : inside y with
    | true => rw [takeWhile_cons_of_pos hi, filter_cons_of_pos hi, ih hl]
    | false =>
      rw [takeWhile_cons_of_neg (by simp [hi])]
      refine (filter_eq_nil_iff.2 fun x hx hix => ?_).symm
      rcases mem_cons.1 hx with rfl | hx
      · rw [hi] at hix
        cases hix
      · rw [hinside (hy x hx) hix] at hi
        cases hi

variable {x : α}

theorem mem_dropWhile (hl : l.Pairwise r)
    (hbelow : ∀ {x y}, r x y → below y = true → below x = true) :
    x ∈ l.dropWhile below ↔ x ∈ l ∧ below x = false := by
  rw [dropWhile_eq_filter hl hbelow, mem_filter, Bool.not_eq_true']

theorem mem_takeWhile (hl : l.Pairwise r)
    (hinside : ∀ {x y}, r x y → inside y = true → inside x = true) :
    x ∈ l.takeWhile inside ↔ x ∈ l ∧ inside x = true := by
  rw [takeWhile_eq_filter hl hinside, mem_filter]

theorem mem_scan (hl : l.Pairwise r) (hbelow : ∀ {x y}, r x y → below y = true → below x = true)
    (hinside : ∀ {x y}, r x y → inside y = true → inside x = true) :
    x ∈ scan below inside l ↔ x ∈ l ∧ below x = false ∧ inside x = true := by
  rw [scan, mem_takeWhile (hl.sublist (dropWhile_sublist below)) hinside,
    mem_dropWhile hl hbelow, and_assoc]

theorem pairwise_lt_of_isChain {f : β → ℕ} {l : List β} (hne : l.IsChain (· ≠ ·))
    (h : l.Pairwise fun x y => x = y ∨ f x < f y) : l.Pairwise fun x y => f x < f y := by
  induction l with
  | nil => exact .nil
  | cons x l ih =>
    obtain ⟨hx, hl⟩ := pairwise_cons.1 h
    have hrest := ih hne.tail hl
    refine pairwise_cons.2 ⟨fun y hy => ?_, hrest⟩
    cases l with
    | nil => cases hy
    | cons z l =>
      have hz := (hx z mem_cons_self).resolve_left (isChain_cons_cons.1 hne).1
      rcases mem_cons.1 hy with rfl | hy
      · exact hz
      · exact hz.trans ((pairwise_cons.1 hrest).1 y hy)

variable [DecidableEq β]

def push (arr : List β) (b : β) : List β :=
  if arr.getLast? = some b then arr else arr ++ [b]

theorem foldl_push_append (arr : List β) (a : β) (l : List β) :
    l.foldl push (arr ++ [a]) = arr ++ l.destutter' (· ≠ ·) a := by
  induction l generalizing arr a with
  | nil => rfl
  | cons b l ih =>
    rw [foldl_cons, push, getLast?_concat]
    by_cases hab : a = b
    · subst hab
      rw [if_pos rfl, ih, destutter'_cons_neg _ (by simp)]
    · rw [if_neg (by simpa using hab), ih, destutter'_cons_pos _ hab, append_assoc]
      rfl

theorem foldl_push (l : List β) : l.foldl push [] = l.destutter (· ≠ ·) := by
  cases l with
  | nil => rfl
  | cons a l => exact foldl_push_append [] a l

theorem mem_foldl_push {arr l : List β} {b : β} :
    b ∈ l.foldl push arr ↔ b ∈ arr ∨ b ∈ l := by
  induction l generalizing arr with
  | nil => simp
  | cons a l ih =>
    have hpush : b ∈ push arr a ↔ b ∈ arr ∨ b = a := by
      unfold push
      split_ifs with hlast
      · refine ⟨Or.inl, fun h => h.elim id ?_⟩
        rintro rfl
        exact mem_of_getLast? hlast
      · rw [mem_append, mem_singleton]
    rw [foldl_cons, ih, hpush, mem_cons, or_assoc]

theorem pairwise_foldl_push {f : β → ℕ} {l : List β}
    (h : l.Pairwise fun x y => x = y ∨ f x < f y) :
    (l.foldl push []).Pairwise fun x y => f x < f y := by
  rw [foldl_push]
  exact pairwise_lt_of_isChain (isChain_destutter _ l) (h.sublist (destutter_sublist _ l))

end RangeScan
