import Mathlib.Data.Set.Basic

/-!
# An index over two tiers

Keys are described by memory places and by disk places, and an index maps keys to
places. What a memory place describes is copied to a disk place, but the index goes
on pointing at the memory place, as a pending move, until that place is used again.
A disk place may be emptied before: its keys then leave the index, and the pending
move has nothing left to move.

`Valid` says that the index is sound, complete and unambiguous on the places that
answer for their keys. The three operations keep it.
-/

@[ext] structure TieredIndex (K M D : Type*) where
  memKeys : M → Set K
  diskKeys : D → Set K
  index : K → Option (M ⊕ D)
  pending : M → D → Prop
  live : Set D

namespace TieredIndex

open Function

variable {K M D : Type*} [DecidableEq M]

variable (t : TieredIndex K M D)

def keys : M ⊕ D → Set K :=
  Sum.elim t.memKeys t.diskKeys

def Answers : M ⊕ D → Prop :=
  Sum.elim (fun m => ∀ d, ¬ t.pending m d) fun d => d ∈ t.live

structure Valid (t : TieredIndex K M D) : Prop where
  sound : ∀ {k p}, t.index k = some p → k ∈ t.keys p
  complete : ∀ {p k}, t.Answers p → k ∈ t.keys p → ∃ q, t.index k = some q
  distinct : ∀ {p q k}, t.Answers p → t.Answers q → k ∈ t.keys p → k ∈ t.keys q → p = q
  pending : ∀ {m d}, t.pending m d →
    (d ∈ t.live ∧ t.memKeys m ⊆ t.diskKeys d) ∨ ∀ k ∈ t.memKeys m, t.index k = none
  idle : ∀ {d}, d ∉ t.live → t.diskKeys d = ∅

open scoped Classical in
/-- The description of a memory place loses some keys and gains others, in the
index too. -/
noncomputable def put (m : M) (removed new : Set K) :
    TieredIndex K M D :=
  { t with
    memKeys := update t.memKeys m (t.memKeys m \ removed ∪ new)
    index := fun k =>
      if k ∈ new then some (.inl m) else if k ∈ removed then none else t.index k }

open scoped Classical in
/-- A memory place with a pending move is emptied: its keys move to the disk place. -/
noncomputable def reuse (m : M) (d : D) : TieredIndex K M D :=
  { t with
    memKeys := update t.memKeys m ∅
    index := fun k =>
      if k ∈ t.memKeys m then (t.index k).map fun _ => .inr d else t.index k
    pending := fun m' d' => t.pending m' d' ∧ m' ≠ m }

open scoped Classical in
/-- Some disk places are emptied, and some memory places are copied to disk places. -/
noncomputable def flush (evicted : Set D) (written : M → D → Prop) :
    TieredIndex K M D where
  memKeys := t.memKeys
  diskKeys := fun d =>
    if ∃ m, written m d then {k | ∃ m, written m d ∧ k ∈ t.memKeys m}
    else if d ∈ evicted then ∅ else t.diskKeys d
  index := fun k => if ∃ d ∈ evicted, k ∈ t.diskKeys d then none else t.index k
  pending := fun m d => t.pending m d ∨ written m d
  live := (t.live \ evicted) ∪ {d | ∃ m, written m d}

section Put

variable {t : TieredIndex K M D} {m : M} {removed new : Set K}

theorem keys_put_self : (t.put m removed new).keys (.inl m) = t.memKeys m \ removed ∪ new := by
  simp [keys, put]

theorem keys_put_of_ne {p : M ⊕ D} (hp : p ≠ .inl m) :
    (t.put m removed new).keys p = t.keys p := by
  cases p with
  | inl m' =>
    have hm : m' ≠ m := fun h => hp (congrArg Sum.inl h)
    simp [keys, put, hm]
  | inr d => rfl

theorem mem_keys_of_put {p : M ⊕ D} {k : K} (hk : k ∈ (t.put m removed new).keys p)
    (hnew : k ∉ new) : k ∈ t.keys p := by
  by_cases hp : p = .inl m
  · subst hp
    rw [keys_put_self] at hk
    exact (hk.resolve_right hnew).1
  · rwa [keys_put_of_ne hp] at hk

theorem index_put_of_notMem {k : K} (hnew : k ∉ new) (hrem : k ∉ removed) :
    (t.put m removed new).index k = t.index k := by
  simp [put, hnew, hrem]

theorem Valid.put (h : t.Valid) (hm : ∀ d, ¬ t.pending m d) (hrem : removed ⊆ t.memKeys m)
    (hnew : ∀ k ∈ new, ∀ p, k ∉ t.keys p) : (t.put m removed new).Valid where
  sound {k p} hk := by
    by_cases hin : k ∈ new
    · have hp : p = .inl m := by simpa [TieredIndex.put, hin] using hk.symm
      subst hp
      rw [keys_put_self]
      exact Or.inr hin
    · have hout : k ∉ removed := fun hr => by simp [TieredIndex.put, hin, hr] at hk
      rw [index_put_of_notMem hin hout] at hk
      have hkey := h.sound hk
      by_cases hp : p = .inl m
      · subst hp
        rw [keys_put_self]
        exact Or.inl ⟨hkey, hout⟩
      · rwa [keys_put_of_ne hp]
  complete {p k} hp hk := by
    by_cases hin : k ∈ new
    · exact ⟨.inl m, by simp [TieredIndex.put, hin]⟩
    · have hkey := mem_keys_of_put hk hin
      have hout : k ∉ removed := by
        intro hr
        have heq : p = .inl m := h.distinct hp hm hkey (hrem hr)
        subst heq
        rw [keys_put_self] at hk
        exact (hk.resolve_right hin).2 hr
      rw [index_put_of_notMem hin hout]
      exact h.complete hp hkey
  distinct {p q k} hp hq hkp hkq := by
    by_cases hin : k ∈ new
    · have hself : ∀ {r : M ⊕ D}, k ∈ (t.put m removed new).keys r → r = .inl m := by
        intro r hr
        by_contra hne
        rw [keys_put_of_ne hne] at hr
        exact hnew k hin r hr
      rw [hself hkp, hself hkq]
    · exact h.distinct hp hq (mem_keys_of_put hkp hin) (mem_keys_of_put hkq hin)
  pending {m' d} hp := by
    have hne : m' ≠ m := by
      rintro rfl
      exact hm d hp
    have hkeys : (t.put m removed new).memKeys m' = t.memKeys m' := update_of_ne hne _ _
    rw [hkeys]
    rcases h.pending hp with hfresh | hstale
    · exact Or.inl hfresh
    · refine Or.inr fun k hk => ?_
      have hin : k ∉ new := fun hin => hnew k hin (.inl m') hk
      by_cases hr : k ∈ removed
      · simp [TieredIndex.put, hin, hr]
      · rw [index_put_of_notMem hin hr]
        exact hstale k hk
  idle hd := h.idle hd

end Put

section Reuse

variable {t : TieredIndex K M D} {m : M} {d : D}

theorem mem_keys_of_reuse {p : M ⊕ D} {k : K} (hk : k ∈ (t.reuse m d).keys p) :
    p ≠ .inl m ∧ k ∈ t.keys p := by
  cases p with
  | inl m' =>
    by_cases hm : m' = m
    · subst hm
      simp [keys, reuse] at hk
    · have hk' : k ∈ t.memKeys m' := by simpa [keys, reuse, hm] using hk
      exact ⟨fun h => hm (Sum.inl.inj h), hk'⟩
  | inr d' => exact ⟨Sum.inr_ne_inl, hk⟩

theorem answers_of_reuse {p : M ⊕ D} (hne : p ≠ .inl m) (hp : (t.reuse m d).Answers p) :
    t.Answers p := by
  cases p with
  | inl m' => exact fun d' hd => hp d' ⟨hd, fun h => hne (congrArg Sum.inl h)⟩
  | inr d' => exact hp

theorem index_reuse_eq_none {k : K} (hk : t.index k = none) : (t.reuse m d).index k = none := by
  simp [reuse, hk]

theorem Valid.reuse (h : t.Valid) (hp : t.pending m d) : (t.reuse m d).Valid where
  sound {k p} hk := by
    by_cases hin : k ∈ t.memKeys m
    · obtain ⟨q, hq, rfl⟩ : ∃ q, t.index k = some q ∧ Sum.inr d = p := by
        simpa [TieredIndex.reuse, hin] using hk
      rcases h.pending hp with ⟨-, hsub⟩ | hstale
      · exact hsub hin
      · rw [hstale k hin] at hq
        cases hq
    · have hk' : t.index k = some p := by simpa [TieredIndex.reuse, hin] using hk
      have hkey := h.sound hk'
      cases p with
      | inl m' =>
        have hm : m' ≠ m := by
          rintro rfl
          exact hin hkey
        have hsame : (t.reuse m d).memKeys m' = t.memKeys m' := update_of_ne hm _ _
        change k ∈ (t.reuse m d).memKeys m'
        rw [hsame]
        exact hkey
      | inr d' => exact hkey
  complete {p k} hp' hk := by
    obtain ⟨hne, hkey⟩ := mem_keys_of_reuse hk
    obtain ⟨q, hq⟩ := h.complete (answers_of_reuse hne hp') hkey
    by_cases hin : k ∈ t.memKeys m
    · exact ⟨.inr d, by simp [TieredIndex.reuse, hin, hq]⟩
    · exact ⟨q, by simp [TieredIndex.reuse, hin, hq]⟩
  distinct {p q k} hp' hq' hkp hkq := by
    obtain ⟨hnep, hkeyp⟩ := mem_keys_of_reuse hkp
    obtain ⟨hneq, hkeyq⟩ := mem_keys_of_reuse hkq
    exact h.distinct (answers_of_reuse hnep hp') (answers_of_reuse hneq hq') hkeyp hkeyq
  pending {m' d'} hp' := by
    have hsame : (t.reuse m d).memKeys m' = t.memKeys m' := update_of_ne hp'.2 _ _
    rw [hsame]
    rcases h.pending hp'.1 with hfresh | hstale
    · exact Or.inl hfresh
    · exact Or.inr fun k hk => index_reuse_eq_none (hstale k hk)
  idle hd := h.idle hd

end Reuse

section Flush

omit [DecidableEq M]

variable {t : TieredIndex K M D} {evicted : Set D} {written : M → D → Prop}

structure Flushable (t : TieredIndex K M D) (evicted : Set D) (written : M → D → Prop) :
    Prop where
  live : evicted ⊆ t.live
  idle : ∀ {m d}, written m d → d ∉ t.live ∨ d ∈ evicted
  answers : ∀ {m d}, written m d → ∀ d', ¬ t.pending m d'
  right_unique : ∀ {m d d'}, written m d → written m d' → d = d'

def Origin (written : M → D → Prop) : M ⊕ D → M ⊕ D → Prop
  | .inl m, q => q = .inl m
  | .inr d, q => (∃ m, written m d ∧ q = .inl m) ∨ ((∀ m, ¬ written m d) ∧ q = .inr d)

theorem exists_origin (hf : t.Flushable evicted written) {p : M ⊕ D} {k : K}
    (hp : (t.flush evicted written).Answers p) (hk : k ∈ (t.flush evicted written).keys p) :
    ∃ q, Origin written p q ∧ t.Answers q ∧ k ∈ t.keys q ∧
      ∀ d ∈ evicted, q ≠ .inr d := by
  cases p with
  | inl m => exact ⟨.inl m, rfl, fun d hd => hp d (Or.inl hd), hk, fun d _ => Sum.inl_ne_inr⟩
  | inr d =>
    by_cases hw : ∃ m, written m d
    · obtain ⟨m, hm, hkm⟩ : ∃ m, written m d ∧ k ∈ t.memKeys m := by
        simpa [keys, flush, hw] using hk
      exact ⟨.inl m, Or.inl ⟨m, hm, rfl⟩, hf.answers hm, hkm, fun d _ => Sum.inl_ne_inr⟩
    · rcases hp with ⟨hlive, hev⟩ | hw'
      · have hkd : k ∈ t.diskKeys d := by simpa [keys, flush, hw, hev] using hk
        refine ⟨.inr d, Or.inr ⟨fun m hm => hw ⟨m, hm⟩, rfl⟩, hlive, hkd, fun d' hd' h => ?_⟩
        exact hev (Sum.inr.inj h ▸ hd')
      · exact absurd hw' hw

theorem index_flush_of_answers (h : t.Valid) (hf : t.Flushable evicted written) {q : M ⊕ D}
    {k : K} (hq : t.Answers q) (hk : k ∈ t.keys q) (hev : ∀ d ∈ evicted, q ≠ .inr d) :
    (t.flush evicted written).index k = t.index k := by
  have hnone : ¬ ∃ d ∈ evicted, k ∈ t.diskKeys d := by
    rintro ⟨d, hd, hkd⟩
    have hans : t.Answers (.inr d) := hf.live hd
    exact hev d hd (h.distinct hq hans hk hkd)
  simp only [flush, if_neg hnone]

theorem origin_unique (hf : t.Flushable evicted written) {p p' q : M ⊕ D}
    (hp : (t.flush evicted written).Answers p) (hp' : (t.flush evicted written).Answers p')
    (ho : Origin written p q) (ho' : Origin written p' q) : p = p' := by
  cases p with
  | inl m =>
    obtain rfl : q = .inl m := ho
    cases p' with
    | inl m' => exact ho'
    | inr d' =>
      rcases ho' with ⟨m', hw, heq⟩ | ⟨-, heq⟩
      · obtain rfl := Sum.inl.inj heq
        exact absurd (Or.inr hw) (hp d')
      · cases heq
  | inr d =>
    rcases ho with ⟨m, hw, rfl⟩ | ⟨-, rfl⟩
    · cases p' with
      | inl m' =>
        obtain rfl := Sum.inl.inj ho'
        exact absurd (Or.inr hw) (hp' d)
      | inr d' =>
        rcases ho' with ⟨m', hw', heq⟩ | ⟨-, heq⟩
        · obtain rfl := Sum.inl.inj heq
          rw [hf.right_unique hw hw']
        · cases heq
    · cases p' with
      | inl m' => cases ho'
      | inr d' =>
        rcases ho' with ⟨m', -, heq⟩ | ⟨-, heq⟩
        · cases heq
        · exact heq

theorem Valid.flush (h : t.Valid) (hf : t.Flushable evicted written) :
    (t.flush evicted written).Valid where
  sound {k p} hk := by
    by_cases hev : ∃ d ∈ evicted, k ∈ t.diskKeys d
    · simp [TieredIndex.flush, hev] at hk
    · have hk' : t.index k = some p := by simpa [TieredIndex.flush, hev] using hk
      have hkey := h.sound hk'
      cases p with
      | inl m => exact hkey
      | inr d =>
        have hnev : d ∉ evicted := fun hd => hev ⟨d, hd, hkey⟩
        have hlive : d ∈ t.live := by
          by_contra hout
          have hempty : k ∈ (∅ : Set K) := h.idle hout ▸ hkey
          exact hempty
        have hnw : ¬ ∃ m, written m d := by
          rintro ⟨m, hm⟩
          exact (hf.idle hm).elim (fun hout => hout hlive) hnev
        have hkd : k ∈ t.diskKeys d := hkey
        simpa [keys, TieredIndex.flush, hnw, hnev] using hkd
  complete hp hk := by
    obtain ⟨q, -, hq, hkq, hev⟩ := exists_origin hf hp hk
    rw [index_flush_of_answers h hf hq hkq hev]
    exact h.complete hq hkq
  distinct hp hp' hk hk' := by
    obtain ⟨q, ho, hq, hkq, -⟩ := exists_origin hf hp hk
    obtain ⟨q', ho', hq', hkq', -⟩ := exists_origin hf hp' hk'
    obtain rfl := h.distinct hq hq' hkq hkq'
    exact origin_unique hf hp hp' ho ho'
  pending {m d} hp := by
    rcases hp with hp | hw
    · rcases h.pending hp with ⟨hlive, hsub⟩ | hstale
      · by_cases hev : d ∈ evicted
        · refine Or.inr fun k hk => ?_
          have hout : ∃ d ∈ evicted, k ∈ t.diskKeys d := ⟨d, hev, hsub hk⟩
          simp only [TieredIndex.flush, if_pos hout]
        · have hnw : ¬ ∃ m, written m d := by
            rintro ⟨m', hm'⟩
            exact (hf.idle hm').elim (fun hout => hout hlive) hev
          refine Or.inl ⟨Or.inl ⟨hlive, hev⟩, fun k hk => ?_⟩
          simpa [TieredIndex.flush, hnw, hev] using hsub hk
      · refine Or.inr fun k hk => ?_
        simp only [TieredIndex.flush, hstale k hk, ite_self]
    · refine Or.inl ⟨Or.inr ⟨m, hw⟩, fun k hk => ?_⟩
      have hex : ∃ m, written m d := ⟨m, hw⟩
      simp only [TieredIndex.flush, if_pos hex]
      exact ⟨m, hw, hk⟩
  idle {d} hd := by
    have hnw : ¬ ∃ m, written m d := fun hw => hd (Or.inr hw)
    by_cases hev : d ∈ evicted
    · simp [TieredIndex.flush, hnw, hev]
    · have hout : d ∉ t.live := fun hlive => hd (Or.inl ⟨hlive, hev⟩)
      simp [TieredIndex.flush, hnw, hev, h.idle hout]

end Flush

end TieredIndex
