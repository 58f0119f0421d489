import PromTCS.Index.PostingsCursor

/-!
# Difference of posting lists

`SubtractionPostings` reports the ids of `full` that are not in `drop`. Both cursors are one id
ahead of what is reported: `full` is moved by `next` before an id is returned, and `drop` is moved
by `seek` to the id `full` is at. The flags say whether the cursors are still at an id.
-/

namespace PromTCS

open List PrefixPostingsV2

structure SubtractionPostings (σ τ : Type*) where
  full : σ
  drop : τ
  fullOk : Bool
  dropOk : Bool
  cur : ℕ
  initialized : Bool

namespace SubtractionPostings

section

variable {σ τ : Type*} (cf : Cursor σ) (cd : Cursor τ)

/-- The constructor; the flags and `cur` are not set before the first call. -/
def ofPostings (full : σ) (drop : τ) : SubtractionPostings σ τ where
  full := full
  drop := drop
  fullOk := false
  dropOk := false
  cur := 0
  initialized := false

variable (s : SubtractionPostings σ τ)

/-- `full_ok = full->next()`. -/
def nextFull : SubtractionPostings σ τ :=
  { s with fullOk := (cf.next s.full).1, full := (cf.next s.full).2 }

/-- `cur = full->at(); full_ok = full->next(); return true`. -/
def report : Bool × SubtractionPostings σ τ :=
  (true, { s.nextFull cf with cur := cf.at' s.full })

/-- The loop of `next`; `none` when `fuel` rounds do not end it. -/
def nextLoop : ℕ → SubtractionPostings σ τ → Option (Bool × SubtractionPostings σ τ)
  | 0, _ => none
  | fuel + 1, s =>
    if !s.fullOk then some (false, s)
    else if !s.dropOk then some (s.report cf)
    else if cf.at' s.full < cd.at' s.drop then some (s.report cf)
    else if cd.at' s.drop < cf.at' s.full then
      let r := cd.seek s.drop (cf.at' s.full)
      nextLoop fuel { s with dropOk := r.1, drop := r.2 }
    else nextLoop fuel (s.nextFull cf)

def start : SubtractionPostings σ τ :=
  if s.initialized then s
  else { s.nextFull cf with
    dropOk := (cd.next s.drop).1
    drop := (cd.next s.drop).2
    initialized := true }

def next (fuel : ℕ) (s : SubtractionPostings σ τ) : Option (Bool × SubtractionPostings σ τ) :=
  nextLoop cf cd fuel (s.start cf cd)

/-- The loop `while (p.next()) v.push_back(p.at())`, with `fuel` rounds for every call. -/
def collect (fuel : ℕ) : ℕ → SubtractionPostings σ τ → Option (List ℕ)
  | 0, _ => none
  | n + 1, s =>
    match s.next cf cd fuel with
    | none => none
    | some (false, _) => some []
    | some (true, s') => (collect fuel n s').map fun v => s'.cur :: v

end

/-! ## What is left -/

variable {σ τ : Type*} {cf : Cursor σ} {cd : Cursor τ}
  {freshF hereF : σ → List ℕ → Prop} {freshD hereD : τ → List ℕ → Prop}

/-- The ids of `f` that are not in `d`. -/
def difference (f d : List ℕ) : List ℕ := f.filter fun x => decide (x ∉ d)

/-- `f` and `d` are left of the lists, the ids at the cursors included. -/
structure Left (hereF : σ → List ℕ → Prop) (hereD : τ → List ℕ → Prop)
    (s : SubtractionPostings σ τ) (f d : List ℕ) : Prop where
  full : s.fullOk = !f.isEmpty ∧ (f ≠ [] → hereF s.full f)
  drop : s.dropOk = !d.isEmpty ∧ (d ≠ [] → hereD s.drop d)
  initialized : s.initialized = true
  full_ascending : f.Pairwise (· < ·)
  drop_ascending : d.Pairwise (· < ·)

variable {d f : List ℕ} {s : SubtractionPostings σ τ} {x : ℕ}

theorem Left.nextFull (hf : cf.Lawful freshF hereF) (h : Left hereF hereD s (x :: f) d) :
    Left hereF hereD (s.nextFull cf) f d where
  full := hf.next_here (h.full.2 (cons_ne_nil x f))
  drop := h.drop
  initialized := h.initialized
  full_ascending := (pairwise_cons.1 h.full_ascending).2
  drop_ascending := h.drop_ascending

theorem Left.report (hf : cf.Lawful freshF hereF) (h : Left hereF hereD s (x :: f) d) :
    Left hereF hereD (s.report cf).2 f d ∧ (s.report cf).2.cur = x := by
  have hnext := h.nextFull hf
  exact ⟨⟨hnext.full, hnext.drop, hnext.initialized, hnext.full_ascending, hnext.drop_ascending⟩,
    hf.at_here (h.full.2 (cons_ne_nil x f))⟩

theorem Left.seekDrop (hf : cf.Lawful freshF hereF) (hd : cd.Lawful freshD hereD)
    (h : Left hereF hereD s (x :: f) d) (hne : d ≠ []) :
    Left hereF hereD { s with
      dropOk := (cd.seek s.drop (cf.at' s.full)).1
      drop := (cd.seek s.drop (cf.at' s.full)).2 } (x :: f) (d.dropWhile (· < x)) where
  full := h.full
  drop := by
    rw [hf.at_here (h.full.2 (cons_ne_nil x f))]
    exact hd.seek_here x (h.drop.2 hne)
  initialized := h.initialized
  full_ascending := h.full_ascending
  drop_ascending := pairwise_dropWhile h.drop_ascending

theorem difference_dropWhile (hf : (x :: f).Pairwise (· < ·)) (hd : d.Pairwise (· < ·)) :
    difference (x :: f) (d.dropWhile (· < x)) = difference (x :: f) d := by
  refine filter_congr fun y hy => ?_
  have hle : x ≤ y := by
    rcases mem_cons.1 hy with rfl | hy
    · exact Nat.le_refl _
    · exact Nat.le_of_lt ((pairwise_cons.1 hf).1 y hy)
  simp [mem_dropWhile_lt_iff hd, hle]

theorem not_mem_of_lt_head {y : ℕ} (hd : (y :: d).Pairwise (· < ·)) (h : x < y) : x ∉ y :: d := by
  intro hx
  rcases mem_cons.1 hx with rfl | hx
  · exact Nat.lt_irrefl _ h
  · exact Nat.lt_asymm h ((pairwise_cons.1 hd).1 x hx)

theorem nextLoop_spec (hf : cf.Lawful freshF hereF) (hd : cd.Lawful freshD hereD) {fuel : ℕ}
    (h : Left hereF hereD s f d) (hfuel : f.length + d.length < fuel) :
    (∃ s', nextLoop cf cd fuel s = some (false, s') ∧ difference f d = []) ∨
      ∃ s' f' d', nextLoop cf cd fuel s = some (true, s') ∧ Left hereF hereD s' f' d' ∧
        difference f d = s'.cur :: difference f' d' ∧
        f'.length + d'.length < f.length + d.length := by
  induction fuel generalizing s f d with
  | zero => exact absurd hfuel (Nat.not_lt_zero _)
  | succ fuel ih =>
    rw [nextLoop]
    cases f with
    | nil =>
      rw [h.full.1]
      exact Or.inl ⟨s, rfl, rfl⟩
    | cons x f =>
      have hreport : x ∉ d → ∃ s' f' d', some (s.report cf) = some (true, s') ∧
          Left hereF hereD s' f' d' ∧ difference (x :: f) d = s'.cur :: difference f' d' ∧
          f'.length + d'.length < (x :: f).length + d.length := by
        intro hx
        obtain ⟨hleft, hcur⟩ := h.report hf
        refine ⟨(s.report cf).2, f, d, rfl, hleft, ?_, Nat.add_lt_add_right (Nat.lt_succ_self _) _⟩
        rw [hcur]
        exact filter_cons_of_pos (decide_eq_true hx)
      rw [if_neg (by simp [h.full.1])]
      cases d with
      | nil =>
        rw [if_pos (by simp [h.drop.1])]
        exact Or.inr (hreport not_mem_nil)
      | cons y d =>
        rw [if_neg (by simp [h.drop.1]), hf.at_here (h.full.2 (cons_ne_nil x f)),
          hd.at_here (h.drop.2 (cons_ne_nil y d))]
        split_ifs with hlt hgt
        · exact Or.inr (hreport (not_mem_of_lt_head h.drop_ascending hlt))
        · have hseek := h.seekDrop hf hd (cons_ne_nil y d)
          have hdrop : ((y :: d).dropWhile (· < x)).length ≤ d.length := by
            rw [dropWhile_cons_of_pos (by simpa using hgt)]
            exact (dropWhile_sublist _).length_le
          rw [← difference_dropWhile h.full_ascending h.drop_ascending]
          rw [hf.at_here (h.full.2 (cons_ne_nil x f))] at hseek
          simp only [length_cons] at hfuel ⊢
          rcases ih hseek (by simp only [length_cons]; omega) with
            hnone | ⟨s', f', d', heq, hleft, hdiff, hlen⟩
          · exact Or.inl hnone
          · refine Or.inr ⟨s', f', d', heq, hleft, hdiff, ?_⟩
            rw [length_cons] at hlen
            omega
        · obtain rfl : x = y := Nat.le_antisymm (Nat.not_lt.1 hgt) (Nat.not_lt.1 hlt)
          have hskip : difference (x :: f) (x :: d) = difference f (x :: d) :=
            filter_cons_of_neg (by simp)
          rw [hskip]
          simp only [length_cons] at hfuel ⊢
          rcases ih (h.nextFull hf) (by simp only [length_cons]; omega) with
            hnone | ⟨s', f', d', heq, hleft, hdiff, hlen⟩
          · exact Or.inl hnone
          · refine Or.inr ⟨s', f', d', heq, hleft, hdiff, ?_⟩
            rw [length_cons] at hlen
            omega

theorem Left.start_eq (cf : Cursor σ) (cd : Cursor τ) (h : Left hereF hereD s f d) :
    s.start cf cd = s := by
  rw [start, h.initialized, if_pos rfl]

theorem left_start (hf : cf.Lawful freshF hereF) (hd : cd.Lawful freshD hereD) {full : σ} {drop : τ}
    (hfull : freshF full f) (hdrop : freshD drop d) (hfasc : f.Pairwise (· < ·))
    (hdasc : d.Pairwise (· < ·)) : Left hereF hereD ((ofPostings full drop).start cf cd) f d :=
  ⟨hf.next_fresh hfull, hd.next_fresh hdrop, rfl, hfasc, hdasc⟩

theorem collect_eq (hf : cf.Lawful freshF hereF) (hd : cd.Lawful freshD hereD) {fuel n : ℕ}
    (h : Left hereF hereD (s.start cf cd) f d) (hfuel : f.length + d.length < fuel)
    (hn : f.length + d.length < n) : collect cf cd fuel n s = some (difference f d) := by
  induction n generalizing s f d with
  | zero => exact absurd hn (Nat.not_lt_zero _)
  | succ n ih =>
    rw [collect, next]
    rcases nextLoop_spec hf hd h hfuel with
      ⟨s', heq, hdiff⟩ | ⟨s', f', d', heq, hleft, hdiff, hlen⟩
    · rw [heq, hdiff]
    · have hrest := ih (s := s') ((hleft.start_eq cf cd).symm ▸ hleft) (by omega) (by omega)
      rw [heq, hdiff]
      simp only [hrest, Option.map_some]

/-- The loop over `next` ends, and returns the ids of `full` that are not in `drop`, in
their order. -/
theorem subtractionPostings_enumerates (hf : cf.Lawful freshF hereF)
    (hd : cd.Lawful freshD hereD) {full : σ} {drop : τ} {f d : List ℕ} (hfull : freshF full f)
    (hdrop : freshD drop d) (hfasc : f.Pairwise (· < ·)) (hdasc : d.Pairwise (· < ·)) :
    ∀ fuel n, f.length + d.length < fuel → f.length + d.length < n →
      ∃ v, collect cf cd fuel n (ofPostings full drop) = some v ∧ v.Pairwise (· < ·) ∧
        ∀ x, x ∈ v ↔ x ∈ f ∧ x ∉ d := by
  intro fuel n hfuel hn
  refine ⟨difference f d, collect_eq hf hd (left_start hf hd hfull hdrop hfasc hdasc) hfuel hn,
    hfasc.filter _, fun x => ?_⟩
  rw [difference, mem_filter, decide_eq_true_eq]

/-- Two lists of three ids, the last ones in blocks of their own. -/
theorem subtractionPostings_enumerates_blocks :
    ∃ v, collect cursorOps cursorOps 7 7
        (ofPostings (ofIds [1, 3, 70000]) (ofIds [2, 3, 80000])) =
          some v ∧ v.Pairwise (· < ·) ∧ ∀ x, x ∈ v ↔ x ∈ [1, 3, 70000] ∧ x ∉ [2, 3, 80000] :=
  subtractionPostings_enumerates lawful_cursorOps
    lawful_cursorOps (fresh_ofIds (by decide))
    (fresh_ofIds (by decide)) (by decide) (by decide) 7 7 (by decide) (by decide)

end SubtractionPostings

end PromTCS
