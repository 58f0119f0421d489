import Mathlib.Data.Finset.Image
import PromTCS.Head.TreeHead

/-!
# The identity of a series

The three tables of the head intern what they are given: the source texts, the
metrics, and the pairs of their ids. Two calls find the same series exactly when
their metrics and source texts agree, so label sets are kept apart as far as the
source text keeps them apart.
-/

namespace PromTCS

open List Interner

def SeriesIdentity (lsets : List Labels) : Prop :=
  ∃ series h, TreeHead.init.getOrCreateAll lsets = .ok (series, h) ∧
    ∀ (i j : ℕ) (a b : Labels) (p q : ℕ), lsets[i]? = some a → lsets[j]? = some b →
      series[i]? = some p → series[j]? = some q → (p = q ↔ a = b)

namespace TreeHead

variable (h : TreeHead)

def sources : Interner (List Byte) := ⟨h.sourceThmap, h.lastSourceGroupId⟩

def metrics : Interner (List Byte) := ⟨h.metricThmap, h.lastMetricId⟩

def forwards : Interner (ℕ × ℕ) := ⟨h.forwardIndex, h.nseries⟩

section SourceId

variable {h : TreeHead} {lset : Labels} (hne : lset ≠ []) {isExist : Bool}

include hne

theorem exists_getOrCreateSourceId
    (hcap : (h.sources.intern (labelSourceGroup lset)).count < maxSourceNum) :
    ∃ res, h.getOrCreateSourceId lset isExist = .ok res := by
  rw [getOrCreateSourceId, if_neg (by simpa using hne)]
  cases hs : h.sourceThmap (labelSourceGroup lset) with
  | some sgid => exact ⟨_, rfl⟩
  | none =>
    rw [intern_of_none (show h.sources.table _ = none from hs)] at hcap
    exact ⟨_, if_neg (Nat.not_le.2 hcap)⟩

theorem getOrCreateSourceId_eq_ok {res : (ℕ × Bool) × TreeHead}
    (hok : h.getOrCreateSourceId lset isExist = .ok res) :
    res.1.1 = h.sources.idOf (labelSourceGroup lset) ∧
      res.2.sources = h.sources.intern (labelSourceGroup lset) ∧
      res.2.metrics = h.metrics ∧ res.2.forwards = h.forwards ∧
      (h.lastSourceGroupId < maxSourceNum → res.2.lastSourceGroupId < maxSourceNum) := by
  rw [getOrCreateSourceId, if_neg (by simpa using hne)] at hok
  cases hs : h.sourceThmap (labelSourceGroup lset) with
  | some sgid =>
    have hs' : h.sources.table (labelSourceGroup lset) = some sgid := hs
    rw [hs] at hok
    cases hok
    exact ⟨(idOf_of_some hs').symm, (intern_of_some hs').symm, rfl, rfl, id⟩
  | none =>
    have hs' : h.sources.table (labelSourceGroup lset) = none := hs
    simp only [hs] at hok
    split_ifs at hok with hroom
    cases hok
    exact ⟨(idOf_of_none hs').symm, (intern_of_none hs').symm, rfl, rfl,
      fun _ => Nat.not_le.1 hroom⟩

end SourceId

section MetricId

variable {h : TreeHead} {lset : Labels} (hne : lset ≠ []) {isExist : Bool}

include hne

theorem exists_getOrCreateMetricId
    (hcap : (h.metrics.intern (labelMetric lset)).count < maxMetricNum) :
    ∃ res, h.getOrCreateMetricId lset isExist = .ok res := by
  rw [getOrCreateMetricId, if_neg (by simpa using hne)]
  cases hm : h.metricThmap (labelMetric lset) with
  | some mid => exact ⟨_, rfl⟩
  | none =>
    rw [intern_of_none (show h.metrics.table _ = none from hm)] at hcap
    exact ⟨_, if_neg (Nat.not_le.2 hcap)⟩

theorem getOrCreateMetricId_eq_ok {res : (ℕ × Bool) × TreeHead}
    (hok : h.getOrCreateMetricId lset isExist = .ok res) :
    res.1.1 = h.metrics.idOf (labelMetric lset) ∧ res.2.sources = h.sources ∧
      res.2.metrics = h.metrics.intern (labelMetric lset) ∧ res.2.forwards = h.forwards ∧
      (h.lastMetricId < maxMetricNum → res.2.lastMetricId < maxMetricNum) := by
  rw [getOrCreateMetricId, if_neg (by simpa using hne)] at hok
  cases hm : h.metricThmap (labelMetric lset) with
  | some mid =>
    have hm' : h.metrics.table (labelMetric lset) = some mid := hm
    rw [hm] at hok
    cases hok
    exact ⟨(idOf_of_some hm').symm, rfl, (intern_of_some hm').symm, rfl, id⟩
  | none =>
    have hm' : h.metrics.table (labelMetric lset) = none := hm
    simp only [hm] at hok
    split_ifs at hok with hroom
    cases hok
    exact ⟨(idOf_of_none hm').symm, rfl, (intern_of_none hm').symm, rfl,
      fun _ => Nat.not_le.1 hroom⟩

end MetricId

def seriesKey (lset : Labels) : ℕ × ℕ :=
  (h.sources.idOf (labelSourceGroup lset), h.metrics.idOf (labelMetric lset))

theorem findSeries_eq (key : ℕ × ℕ) :
    (h.findSeries key).1.1 = h.forwards.idOf key ∧
      (h.findSeries key).2.forwards = h.forwards.intern key ∧
      (h.findSeries key).2.sources = h.sources ∧ (h.findSeries key).2.metrics = h.metrics := by
  cases hkey : h.forwardIndex key with
  | some series =>
    have hkey' : h.forwards.table key = some series := hkey
    simp only [findSeries, hkey, idOf_of_some hkey', intern_of_some hkey',
      and_self]
  | none =>
    have hkey' : h.forwards.table key = none := hkey
    rw [idOf_of_none hkey', intern_of_none hkey']
    simp only [findSeries, hkey]
    exact ⟨rfl, rfl, rfl, rfl⟩

section ByThmap

variable {h : TreeHead} {lset : Labels} (hne : lset ≠ [])

include hne

theorem exists_getOrCreateByThmap
    (hsource : (h.sources.intern (labelSourceGroup lset)).count < maxSourceNum)
    (hmetric : (h.metrics.intern (labelMetric lset)).count < maxMetricNum) :
    ∃ res, h.getOrCreateByThmap lset = .ok res := by
  obtain ⟨res₁, hs⟩ := @exists_getOrCreateSourceId h lset hne true hsource
  obtain ⟨-, -, hm₁, -⟩ := getOrCreateSourceId_eq_ok hne hs
  obtain ⟨res₂, hm⟩ := @exists_getOrCreateMetricId res₁.2 lset hne res₁.1.2 (hm₁ ▸ hmetric)
  simp only [getOrCreateByThmap, hs, hm, bind, Except.bind]
  exact ⟨_, rfl⟩

theorem getOrCreateByThmap_eq_ok {res : (ℕ × Bool) × TreeHead}
    (hok : h.getOrCreateByThmap lset = .ok res) :
    res.1.1 = h.forwards.idOf (h.seriesKey lset) ∧
      res.2.sources = h.sources.intern (labelSourceGroup lset) ∧
      res.2.metrics = h.metrics.intern (labelMetric lset) ∧
      res.2.forwards = h.forwards.intern (h.seriesKey lset) ∧
      (h.lastSourceGroupId < maxSourceNum → res.2.lastSourceGroupId < maxSourceNum) ∧
      (h.lastMetricId < maxMetricNum → res.2.lastMetricId < maxMetricNum) := by
  obtain ⟨res₁, hs, hok⟩ := Run.bind_eq_ok hok
  obtain ⟨res₂, hm, hok⟩ := Run.bind_eq_ok hok
  cases hok
  obtain ⟨hid₁, hsources₁, hmetrics₁, hforwards₁, hlt₁⟩ := getOrCreateSourceId_eq_ok hne hs
  obtain ⟨hid₂, hsources₂, hmetrics₂, hforwards₂, hlt₂⟩ := getOrCreateMetricId_eq_ok hne hm
  -- The postings are the only thing that changes before the forward index is read.
  generalize hh₃ : (if res₂.1.2 = true then res₂.2 else res₂.2.addPostings res₁.1.1 lset) = h₃
  have hsources₃ : h₃.sources = res₂.2.sources := by
    rw [← hh₃]
    split <;> rfl
  have hmetrics₃ : h₃.metrics = res₂.2.metrics := by
    rw [← hh₃]
    split <;> rfl
  have hforwards₃ : h₃.forwards = res₂.2.forwards := by
    rw [← hh₃]
    split <;> rfl
  have hkey : (res₁.1.1, res₂.1.1) = h.seriesKey lset := by
    rw [hid₁, hid₂, hmetrics₁]
    rfl
  obtain ⟨hid, hforwards, hsources, hmetrics⟩ := h₃.findSeries_eq (res₁.1.1, res₂.1.1)
  rw [hkey, hforwards₃, hforwards₂, hforwards₁] at hid hforwards
  have hsources' := hsources.trans (hsources₃.trans hsources₂)
  have hmetrics' := hmetrics.trans hmetrics₃
  refine ⟨?_, ?_, ?_, ?_, fun hlt => ?_, fun hlt => ?_⟩
  · rw [← hid, hkey]
  · rw [hsources', hsources₁]
  · rw [hmetrics', hmetrics₂, hmetrics₁]
  · rw [← hforwards, hkey]
  · rw [show (h₃.findSeries (res₁.1.1, res₂.1.1)).2.lastSourceGroupId = res₁.2.lastSourceGroupId
      from congrArg count hsources']
    exact hlt₁ hlt
  · rw [show (h₃.findSeries (res₁.1.1, res₂.1.1)).2.lastMetricId = res₂.2.lastMetricId
      from congrArg count hmetrics']
    refine hlt₂ ?_
    rwa [show res₁.2.lastMetricId = h.lastMetricId from congrArg count hmetrics₁]

end ByThmap

/-! ## Sequences of calls -/

structure Registered (h : TreeHead) (groups metrics : Finset (List Byte)) : Prop where
  sources : h.sources.Valid groups
  metrics : h.metrics.Valid metrics
  forwards : ∃ keys, h.forwards.Valid keys
  sources_lt : h.lastSourceGroupId < maxSourceNum
  metrics_lt : h.lastMetricId < maxMetricNum

theorem registered_init : init.Registered ∅ ∅ where
  sources := valid_empty
  metrics := valid_empty
  forwards := ⟨∅, valid_empty⟩
  sources_lt := by decide
  metrics_lt := by decide

def Finds (lset : Labels) (series : ℕ) : Prop :=
  ∃ sgid mid, h.sourceThmap (labelSourceGroup lset) = some sgid ∧
    h.metricThmap (labelMetric lset) = some mid ∧ h.forwardIndex (sgid, mid) = some series

variable {h : TreeHead} {groups metrics : Finset (List Byte)}

theorem Registered.finds_iff (hr : h.Registered groups metrics) {a b : Labels} {p q : ℕ}
    (ha : h.Finds a p) (hb : h.Finds b q) : p = q ↔
      labelSourceGroup a = labelSourceGroup b ∧ labelMetric a = labelMetric b := by
  obtain ⟨s, m, hs, hm, hp⟩ := ha
  obtain ⟨s', m', hs', hm', hq⟩ := hb
  obtain ⟨keys, hkeys⟩ := hr.forwards
  constructor
  · rintro rfl
    obtain ⟨rfl, rfl⟩ := Prod.mk.inj (hkeys.injective hp hq)
    exact ⟨hr.sources.injective hs hs', hr.metrics.injective hm hm'⟩
  · rintro ⟨hgroup, hmetric⟩
    rw [← hgroup, hs, Option.some.injEq] at hs'
    rw [← hmetric, hm, Option.some.injEq] at hm'
    rw [← hs', ← hm', hp, Option.some.injEq] at hq
    exact hq

section Step

variable {h : TreeHead} {groups metrics : Finset (List Byte)} (hr : h.Registered groups metrics)
  {lset : Labels} (hne : lset ≠ []) {res : (ℕ × Bool) × TreeHead}
  (hok : h.getOrCreateByThmap lset = .ok res)

include hne hok

theorem finds_of_getOrCreateByThmap : res.2.Finds lset res.1.1 := by
  obtain ⟨hid, hsources, hmetrics, hforwards, -⟩ := getOrCreateByThmap_eq_ok hne hok
  refine ⟨(h.seriesKey lset).1, (h.seriesKey lset).2, ?_, ?_, ?_⟩
  · exact (congrFun (congrArg table hsources) _).trans (table_intern_self _ _)
  · exact (congrFun (congrArg table hmetrics) _).trans (table_intern_self _ _)
  · rw [hid]
    exact (congrFun (congrArg table hforwards) _).trans (table_intern_self _ _)

theorem Finds.getOrCreateByThmap {a : Labels} {p : ℕ} (ha : h.Finds a p) : res.2.Finds a p := by
  obtain ⟨-, hsources, hmetrics, hforwards, -⟩ := getOrCreateByThmap_eq_ok hne hok
  obtain ⟨s, m, hs, hm, hp⟩ := ha
  refine ⟨s, m, ?_, ?_, ?_⟩
  · exact (congrFun (congrArg table hsources) _).trans
      (table_intern_of_some hs)
  · exact (congrFun (congrArg table hmetrics) _).trans
      (table_intern_of_some hm)
  · exact (congrFun (congrArg table hforwards) _).trans
      (table_intern_of_some hp)

include hr in
theorem Registered.getOrCreateByThmap :
    res.2.Registered (insert (labelSourceGroup lset) groups)
      (insert (labelMetric lset) metrics) := by
  obtain ⟨-, hsources, hmetrics, hforwards, hlt, hlt'⟩ := getOrCreateByThmap_eq_ok hne hok
  obtain ⟨keys, hkeys⟩ := hr.forwards
  exact ⟨hsources ▸ hr.sources.intern _, hmetrics ▸ hr.metrics.intern _,
    ⟨_, hforwards ▸ hkeys.intern _⟩, hlt hr.sources_lt, hlt' hr.metrics_lt⟩

end Step

theorem getOrCreateAll_eq_ok {h' : TreeHead} (hr : h.Registered groups metrics)
    {lsets : List Labels} (hne : ∀ lset ∈ lsets, lset ≠ []) {series : List ℕ}
    (hok : h.getOrCreateAll lsets = .ok (series, h')) :
    h'.Registered ((lsets.map labelSourceGroup).toFinset ∪ groups)
        ((lsets.map labelMetric).toFinset ∪ metrics) ∧
      (∀ {a p}, h.Finds a p → h'.Finds a p) ∧
      ∀ (i : ℕ) (a : Labels), lsets[i]? = some a →
        ∃ p, series[i]? = some p ∧ h'.Finds a p := by
  induction lsets generalizing h groups metrics series with
  | nil =>
    cases hok
    refine ⟨?_, id, fun i a ha => ?_⟩
    · simpa using hr
    · cases ha
  | cons lset lsets ih =>
    obtain ⟨res, hcall, hok⟩ := Run.bind_eq_ok hok
    obtain ⟨rest, hrest, hok⟩ := Run.bind_eq_ok hok
    cases hok
    have hlset := hne lset mem_cons_self
    obtain ⟨hr', hkeep, hfinds⟩ := ih (hr.getOrCreateByThmap hlset hcall)
      (fun a ha => hne a (mem_cons_of_mem lset ha)) hrest
    refine ⟨?_, fun ha => hkeep (ha.getOrCreateByThmap hlset hcall), fun i a ha => ?_⟩
    · simpa only [map_cons, toFinset_cons, Finset.insert_union, Finset.union_insert]
        using hr'
    · cases i with
      | zero =>
        cases ha
        exact ⟨_, rfl, hkeep (finds_of_getOrCreateByThmap hlset hcall)⟩
      | succ i => exact hfinds i a ha

theorem exists_getOrCreateAll (hr : h.Registered groups metrics) {lsets : List Labels}
    (hne : ∀ lset ∈ lsets, lset ≠ [])
    (hsource : ((lsets.map labelSourceGroup).toFinset ∪ groups).card < maxSourceNum)
    (hmetric : ((lsets.map labelMetric).toFinset ∪ metrics).card < maxMetricNum) :
    ∃ res, h.getOrCreateAll lsets = .ok res := by
  induction lsets generalizing h groups metrics with
  | nil => exact ⟨_, rfl⟩
  | cons lset lsets ih =>
    have hlset := hne lset mem_cons_self
    simp only [map_cons, toFinset_cons, Finset.insert_union,
      ← Finset.union_insert] at hsource hmetric
    have hs : (h.sources.intern (labelSourceGroup lset)).count < maxSourceNum := by
      rw [(hr.sources.intern (labelSourceGroup lset)).count_eq]
      exact (Finset.card_le_card Finset.subset_union_right).trans_lt hsource
    have hm : (h.metrics.intern (labelMetric lset)).count < maxMetricNum := by
      rw [(hr.metrics.intern (labelMetric lset)).count_eq]
      exact (Finset.card_le_card Finset.subset_union_right).trans_lt hmetric
    obtain ⟨res, hcall⟩ := exists_getOrCreateByThmap hlset hs hm
    obtain ⟨rest, hrest⟩ := ih (hr.getOrCreateByThmap hlset hcall)
      (fun a ha => hne a (mem_cons_of_mem lset ha)) hsource hmetric
    refine ⟨(res.1.1 :: rest.1, rest.2), ?_⟩
    simp only [getOrCreateAll, hcall, hrest, bind, Except.bind]
    rfl

end TreeHead

theorem WellFormed.ne_nil {lset : Labels} (h : WellFormed lset) : lset ≠ [] := by
  obtain ⟨l, hl, -⟩ := h.named
  exact ne_nil_of_mem hl

/-- Two calls return the same series exactly for equal label sets, in a sequence of
calls, when no two label sets of the sequence agree in metric and source text only, and
there are ids for all its sources and metrics. -/
theorem seriesIdentity_iff (lsets : List Labels) (hwf : ∀ lset ∈ lsets, WellFormed lset) :
    SeriesIdentity lsets ↔
      (∀ a ∈ lsets, ∀ b ∈ lsets, labelMetric a = labelMetric b →
        labelSourceGroup a = labelSourceGroup b → a = b) ∧
      (lsets.map labelSourceGroup).toFinset.card < maxSourceNum ∧
      (lsets.map labelMetric).toFinset.card < maxMetricNum := by
  have hne : ∀ lset ∈ lsets, lset ≠ [] := fun lset hlset => (hwf lset hlset).ne_nil
  constructor
  · rintro ⟨series, h, hok, hid⟩
    obtain ⟨hr, -, hfinds⟩ := TreeHead.getOrCreateAll_eq_ok TreeHead.registered_init hne hok
    rw [Finset.union_empty, Finset.union_empty] at hr
    refine ⟨fun a ha b hb hmetric hgroup => ?_, ?_, ?_⟩
    · obtain ⟨i, hi⟩ := mem_iff_getElem?.1 ha
      obtain ⟨j, hj⟩ := mem_iff_getElem?.1 hb
      obtain ⟨p, hp, hap⟩ := hfinds i a hi
      obtain ⟨q, hq, hbq⟩ := hfinds j b hj
      exact (hid i j a b p q hi hj hp hq).1 ((hr.finds_iff hap hbq).2 ⟨hgroup, hmetric⟩)
    · exact hr.sources.count_eq ▸ hr.sources_lt
    · exact hr.metrics.count_eq ▸ hr.metrics_lt
  · rintro ⟨hinj, hsource, hmetric⟩
    obtain ⟨⟨series, h⟩, hok⟩ := TreeHead.exists_getOrCreateAll TreeHead.registered_init hne
      (by rwa [Finset.union_empty]) (by rwa [Finset.union_empty])
    obtain ⟨hr, -, hfinds⟩ := TreeHead.getOrCreateAll_eq_ok TreeHead.registered_init hne hok
    refine ⟨series, h, hok, fun i j a b p q hi hj hp hq => ?_⟩
    obtain ⟨p', hp', hap⟩ := hfinds i a hi
    obtain ⟨q', hq', hbq⟩ := hfinds j b hj
    obtain rfl : p' = p := Option.some.inj (hp'.symm.trans hp)
    obtain rfl : q' = q := Option.some.inj (hq'.symm.trans hq)
    rw [hr.finds_iff hap hbq]
    constructor
    · rintro ⟨hgroup, hmetric⟩
      exact hinj a (mem_of_getElem? hi) b (mem_of_getElem? hj) hmetric hgroup
    · rintro rfl
      exact ⟨rfl, rfl⟩

def twoSources : List Labels :=
  [[⟨metricName, [109]⟩, ⟨[97], [49]⟩], [⟨metricName, [109]⟩, ⟨[97], [50]⟩]]

instance (lset : Labels) : Decidable (WellFormed lset) :=
  decidable_of_iff ((∃ l ∈ lset, l.label = metricName) ∧
    (lset.map Label.label).Pairwise (· < ·)) ⟨fun h => ⟨h.1, h.2⟩, fun h => ⟨h.named, h.sorted⟩⟩

theorem seriesIdentity_twoSources : SeriesIdentity twoSources :=
  (seriesIdentity_iff twoSources (by decide)).2 (by decide +kernel)

/-- The labels `a="1", b="2"` and the label `a="1b+2"`, which have the same source
text. -/
def mergedSources : List Labels :=
  [[⟨metricName, [109]⟩, ⟨[97], [49]⟩, ⟨[98], [50]⟩],
    [⟨metricName, [109]⟩, ⟨[97], [49, 98, 43, 50]⟩]]

/-- The second call returns the series of the first. -/
theorem seriesIdentity_merged :
    (∀ lset ∈ mergedSources, WellFormed lset) ∧ ¬ SeriesIdentity mergedSources := by
  refine ⟨by decide, ?_⟩
  rintro ⟨series, h, hok, hid⟩
  have hseries := congrArg (fun r => r.toOption.map Prod.fst) hok
  have heval : (TreeHead.init.getOrCreateAll mergedSources).toOption.map Prod.fst =
      some [1, 1] := by
    decide +kernel
  obtain rfl : [1, 1] = series := Option.some.inj (heval.symm.trans hseries)
  exact absurd ((hid 0 1 _ _ 1 1 rfl rfl rfl rfl).1 rfl) (by decide)

end PromTCS
