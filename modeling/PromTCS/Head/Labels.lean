import Mathlib.Data.Finset.Image
import PromTCS.Head.SeriesIdentity

/-!
# The labels of a series

A head keeps the labels of its series in two pools. The first label of a label set goes
to the pool of metrics when its metric is new, and the others go to the pool of sources
when its source text is new; `reconstruct_labels` puts an entry of each together. What
it returns are the labels of a series if the pools agree about where a label set is
cut.
-/

namespace PromTCS

open List TreeHead

namespace TreeHead

/-- `reconstruct_labels(sgid, mid, out)`, with what it appends to `out`. -/
def reconstructLabels (h : TreeHead) (sgid mid : ℕ) : Labels :=
  (if mid < maxMetricNum then (h.metricLabelsPtr mid).toList else []) ++
    if sgid < maxSourceNum then h.sourceLabelsPtr sgid else []

def sourcePool (h : TreeHead) (lset : Labels) : ℕ → Labels :=
  if (h.sourceThmap (labelSourceGroup lset)).isSome then h.sourceLabelsPtr
  else Function.update h.sourceLabelsPtr (h.lastSourceGroupId + 1) lset.tail

def metricPool (h : TreeHead) (lset : Labels) : ℕ → Option Label :=
  if (h.metricThmap (labelMetric lset)).isSome then h.metricLabelsPtr
  else Function.update h.metricLabelsPtr (h.lastMetricId + 1) lset.head?

variable {h : TreeHead} {lset : Labels}

theorem sourcePool_of_le (lset : Labels) {sgid : ℕ} (hle : sgid ≤ h.lastSourceGroupId) :
    h.sourcePool lset sgid = h.sourceLabelsPtr sgid := by
  rw [sourcePool]
  split
  · rfl
  · exact Function.update_of_ne (Nat.ne_of_lt (Nat.lt_succ_of_le hle)) _ _

theorem sourcePool_new (hnew : h.sourceThmap (labelSourceGroup lset) = none) :
    h.sourcePool lset (h.lastSourceGroupId + 1) = lset.tail := by
  simp [sourcePool, hnew]

theorem metricPool_of_le (lset : Labels) {mid : ℕ} (hle : mid ≤ h.lastMetricId) :
    h.metricPool lset mid = h.metricLabelsPtr mid := by
  rw [metricPool]
  split
  · rfl
  · exact Function.update_of_ne (Nat.ne_of_lt (Nat.lt_succ_of_le hle)) _ _

theorem metricPool_new (hnew : h.metricThmap (labelMetric lset) = none) :
    h.metricPool lset (h.lastMetricId + 1) = lset.head? := by
  simp [metricPool, hnew]

theorem findSeries_pools (h : TreeHead) (key : ℕ × ℕ) :
    (h.findSeries key).2.sourceLabelsPtr = h.sourceLabelsPtr ∧
      (h.findSeries key).2.metricLabelsPtr = h.metricLabelsPtr ∧
      (h.findSeries key).2.invertedIndex = h.invertedIndex := by
  rw [findSeries]
  split <;> exact ⟨rfl, rfl, rfl⟩

section Pools

variable {h : TreeHead} {lset : Labels} (hne : lset ≠ []) {isExist : Bool}

include hne

variable {res : (ℕ × Bool) × TreeHead}

theorem getOrCreateSourceId_pools (hok : h.getOrCreateSourceId lset isExist = .ok res) :
    res.2.sourceLabelsPtr = h.sourcePool lset ∧ res.2.metricLabelsPtr = h.metricLabelsPtr ∧
      res.2.invertedIndex = h.invertedIndex ∧
      res.1.2 = (isExist && (h.sourceThmap (labelSourceGroup lset)).isSome) := by
  rw [getOrCreateSourceId, if_neg (by simpa using hne)] at hok
  cases hs : h.sourceThmap (labelSourceGroup lset) with
  | some sgid =>
    rw [hs] at hok
    cases hok
    simp [sourcePool, hs]
  | none =>
    simp only [hs] at hok
    split_ifs at hok
    cases hok
    simp [sourcePool, hs, newSource]

theorem getOrCreateMetricId_pools (hok : h.getOrCreateMetricId lset isExist = .ok res) :
    res.2.sourceLabelsPtr = h.sourceLabelsPtr ∧ res.2.metricLabelsPtr = h.metricPool lset ∧
      res.2.invertedIndex = h.invertedIndex ∧
      res.1.2 = (isExist && (h.metricThmap (labelMetric lset)).isSome) := by
  rw [getOrCreateMetricId, if_neg (by simpa using hne)] at hok
  cases hm : h.metricThmap (labelMetric lset) with
  | some mid =>
    rw [hm] at hok
    cases hok
    simp [metricPool, hm]
  | none =>
    simp only [hm] at hok
    split_ifs at hok
    cases hok
    simp [metricPool, hm, newMetric]

theorem getOrCreateByThmap_pools (hok : h.getOrCreateByThmap lset = .ok res) :
    res.2.sourceLabelsPtr = h.sourcePool lset ∧ res.2.metricLabelsPtr = h.metricPool lset ∧
      res.2.invertedIndex =
        if (h.sourceThmap (labelSourceGroup lset)).isSome && (h.metricThmap (labelMetric lset)).isSome
        then h.invertedIndex
        else (h.addPostings (h.sources.idOf (labelSourceGroup lset)) lset).invertedIndex := by
  obtain ⟨res₁, hs, hok⟩ := Run.bind_eq_ok hok
  obtain ⟨res₂, hm, hok⟩ := Run.bind_eq_ok hok
  cases hok
  obtain ⟨hsource₁, hmetric₁, hindex₁, hexist₁⟩ := getOrCreateSourceId_pools hne hs
  obtain ⟨hsource₂, hmetric₂, hindex₂, hexist₂⟩ := getOrCreateMetricId_pools hne hm
  obtain ⟨hid₁, -, hmetrics₁, -⟩ := getOrCreateSourceId_eq_ok hne hs
  have htable : res₁.2.metricThmap = h.metricThmap := congrArg Interner.table hmetrics₁
  have hlast : res₁.2.lastMetricId = h.lastMetricId := congrArg Interner.count hmetrics₁
  have hpool : res₁.2.metricPool lset = h.metricPool lset := by
    rw [metricPool, metricPool, htable, hlast, hmetric₁]
  rw [hexist₁, Bool.true_and, htable] at hexist₂
  generalize hh₃ : (if res₂.1.2 = true then res₂.2 else res₂.2.addPostings res₁.1.1 lset) = h₃
  have hindex₃ : h₃.invertedIndex =
      if res₂.1.2 = true then h.invertedIndex
      else (h.addPostings (h.sources.idOf (labelSourceGroup lset)) lset).invertedIndex := by
    rw [← hh₃, ← hid₁]
    split
    · rw [hindex₂, hindex₁]
    · rw [addPostings, addPostings, hindex₂, hindex₁]
  obtain ⟨hsource₃, hmetric₃, hindex⟩ := h₃.findSeries_pools (res₁.1.1, res₂.1.1)
  rw [hsource₃, hmetric₃, hindex, hindex₃, hexist₂, ← hh₃]
  refine ⟨?_, ?_, rfl⟩
  · rw [← hsource₁, ← hsource₂]
    split <;> rfl
  · rw [← hpool, ← hmetric₂]
    split <;> rfl

end Pools

/-! ## Sequences of calls -/

/-- The pools hold what label sets of `stored` put there. -/
structure Pooled (h : TreeHead) (stored : Set Labels) : Prop where
  source : ∀ {text sgid}, h.sourceThmap text = some sgid →
    ∃ b ∈ stored, labelSourceGroup b = text ∧ h.sourceLabelsPtr sgid = b.tail
  metric : ∀ {m mid}, h.metricThmap m = some mid →
    ∃ c ∈ stored, labelMetric c = m ∧ h.metricLabelsPtr mid = c.head?

theorem pooled_init : init.Pooled ∅ where
  source h := by cases h
  metric h := by cases h

theorem Pooled.getOrCreateByThmap {stored : Set Labels} (hp : h.Pooled stored)
    {groups metrics : Finset (List Byte)} (hr : h.Registered groups metrics) (hne : lset ≠ [])
    {res : (ℕ × Bool) × TreeHead} (hok : h.getOrCreateByThmap lset = .ok res) :
    res.2.Pooled (insert lset stored) := by
  obtain ⟨hsource, hmetric, -⟩ := getOrCreateByThmap_pools hne hok
  obtain ⟨-, hsources, hmetrics, -⟩ := getOrCreateByThmap_eq_ok hne hok
  constructor
  · intro text sgid htext
    rw [hsource]
    have htext' : (h.sources.intern (labelSourceGroup lset)).table text = some sgid := by
      rwa [← hsources]
    rcases Interner.table_intern_cases htext' with hold | ⟨hnew, rfl, rfl⟩
    · obtain ⟨b, hb, hgroup, hptr⟩ := hp.source hold
      refine ⟨b, Set.mem_insert_of_mem _ hb, hgroup, ?_⟩
      rw [sourcePool_of_le lset (hr.sources.le hold), hptr]
    · exact ⟨lset, Set.mem_insert _ _, rfl, sourcePool_new hnew⟩
  · intro m mid hm
    rw [hmetric]
    have hm' : (h.metrics.intern (labelMetric lset)).table m = some mid := by
      rwa [← hmetrics]
    rcases Interner.table_intern_cases hm' with hold | ⟨hnew, rfl, rfl⟩
    · obtain ⟨c, hc, hname, hptr⟩ := hp.metric hold
      refine ⟨c, Set.mem_insert_of_mem _ hc, hname, ?_⟩
      rw [metricPool_of_le lset (hr.metrics.le hold), hptr]
    · exact ⟨lset, Set.mem_insert _ _, rfl, metricPool_new hnew⟩

theorem Pooled.getOrCreateAll {h' : TreeHead} {stored : Set Labels} (hp : h.Pooled stored)
    {groups metrics : Finset (List Byte)} (hr : h.Registered groups metrics) {lsets : List Labels}
    (hne : ∀ lset ∈ lsets, lset ≠ []) {series : List ℕ}
    (hok : h.getOrCreateAll lsets = .ok (series, h')) : h'.Pooled ({a | a ∈ lsets} ∪ stored) := by
  induction lsets generalizing h stored groups metrics series with
  | nil =>
    cases hok
    simpa using hp
  | cons lset lsets ih =>
    obtain ⟨res, hcall, hok⟩ := Run.bind_eq_ok hok
    obtain ⟨rest, hrest, hok⟩ := Run.bind_eq_ok hok
    cases hok
    have hlset := hne lset mem_cons_self
    have hp' := ih (hp.getOrCreateByThmap hr hlset hcall) (hr.getOrCreateByThmap hlset hcall)
      (fun a ha => hne a (mem_cons_of_mem lset ha)) hrest
    have hset : ({a | a ∈ lset :: lsets} ∪ stored : Set Labels) =
        {a | a ∈ lsets} ∪ insert lset stored := by
      ext a
      simp only [Set.mem_union, Set.mem_ofPred_eq, mem_cons, Set.mem_insert_iff]
      tauto
    rwa [hset]

end TreeHead

/-! ## Sorted label sets -/

namespace WellFormed

variable {a b : Labels}

theorem pairwise (ha : WellFormed a) : a.Pairwise fun l l' => l.label < l'.label :=
  pairwise_map.1 ha.sorted

theorem nodup_of_pairwise {c : Labels} (hc : c.Pairwise fun l l' => l.label < l'.label) :
    (c.map Label.label).Nodup := by
  rw [List.Nodup, pairwise_map]
  refine hc.imp ?_
  intro l l' hlt heq
  rw [heq] at hlt
  exact List.lt_irrefl _ hlt

section

variable (ha : WellFormed a)
include ha

theorem eq_of_mem_iff (hb : b.Pairwise fun l l' => l.label < l'.label)
    (hmem : ∀ l, l ∈ b ↔ l ∈ a) : a = b := by
  have hperm : a.Perm b := (perm_ext_iff_of_nodup
    (nodup_of_pairwise ha.pairwise).of_map (nodup_of_pairwise hb).of_map).2 fun l => (hmem l).symm
  exact hperm.eq_of_pairwise (fun l l' _ _ hlt hlt' => absurd hlt' (List.lt_asymm hlt))
    ha.pairwise hb

theorem metric_mem : ⟨metricName, labelMetric a⟩ ∈ a := by
  obtain ⟨l, hl, hname⟩ := ha.named
  rw [labelMetric]
  cases hfind : a.find? fun l => l.label == metricName with
  | none =>
    rw [find?_eq_none] at hfind
    exact absurd hname (by simpa using hfind l hl)
  | some l' =>
    have hname' : l'.label = metricName := by simpa using find?_some hfind
    rw [← hname']
    exact mem_of_find?_eq_some hfind

theorem eq_of_label_eq {l l' : Label} (hl : l ∈ a) (hl' : l' ∈ a)
    (heq : l.label = l'.label) : l = l' :=
  inj_on_of_nodup_map (nodup_of_pairwise ha.pairwise) hl hl' heq

theorem value_eq {l : Label} (hl : l ∈ a) (hname : l.label = metricName) :
    l.value = labelMetric a :=
  congrArg Label.value (ha.eq_of_label_eq hl ha.metric_mem hname)

theorem cut_eq (hb : WellFormed b) {y z : Label} {bt : Labels}
    (hbt : b = y :: bt) (hyz : labelMetric b = labelMetric a → z = y)
    (hmem : ∀ l, l ∈ z :: bt ↔ l ∈ a) : a = z :: bt := by
  subst hbt
  have hsorted := hb.pairwise
  refine ha.eq_of_mem_iff ?_ hmem
  by_cases hz : z.label = metricName
  · have hy : y.label = metricName := by
      rcases mem_cons.1 hb.metric_mem with hy | hbt'
      · rw [← hy]
      · have hval := ha.value_eq ((hmem _).1 (mem_cons_of_mem z hbt')) rfl
        rw [← hyz hval, hz]
    rw [pairwise_cons] at hsorted ⊢
    rwa [hz, ← hy]
  · have hval : labelMetric (y :: bt) = labelMetric a := by
      rcases mem_cons.1 ((hmem _).2 ha.metric_mem) with hz' | hbt'
      · exact absurd (congrArg Label.label hz').symm hz
      · exact (hb.value_eq (mem_cons_of_mem y hbt') rfl).symm
    rwa [hyz hval]

end

end WellFormed

def LabelsReconstructed (lsets : List Labels) : Prop :=
  ∃ series h, TreeHead.init.getOrCreateAll lsets = .ok (series, h) ∧
    ∀ (i : ℕ) (a : Labels) (p : ℕ), lsets[i]? = some a → series[i]? = some p →
      ∃ sgid mid, h.forwardIndex (sgid, mid) = some p ∧
        ∀ l, l ∈ h.reconstructLabels sgid mid ↔ l ∈ a

namespace TreeHead

def firstLabel (h : TreeHead) (m : List Byte) : Option Label :=
  (h.metricThmap m).bind h.metricLabelsPtr

def restLabels (h : TreeHead) (text : List Byte) : Labels :=
  (h.sourceThmap text).elim [] h.sourceLabelsPtr

section Reconstruct

variable {h : TreeHead} {stored : Set Labels} (hp : h.Pooled stored) {a : Labels} {p : ℕ}
  (ha : h.Finds a p)

include hp ha

theorem Pooled.exists_firstLabel :
    ∃ c ∈ stored, labelMetric c = labelMetric a ∧ h.firstLabel (labelMetric a) = c.head? := by
  obtain ⟨-, mid, -, hm, -⟩ := ha
  obtain ⟨c, hc, hname, hptr⟩ := hp.metric hm
  exact ⟨c, hc, hname, by rw [firstLabel, hm]; exact hptr⟩

theorem Pooled.exists_restLabels :
    ∃ b ∈ stored, labelSourceGroup b = labelSourceGroup a ∧
      h.restLabels (labelSourceGroup a) = b.tail := by
  obtain ⟨sgid, -, hs, -⟩ := ha
  obtain ⟨b, hb, hgroup, hptr⟩ := hp.source hs
  exact ⟨b, hb, hgroup, by rw [restLabels, hs]; exact hptr⟩

omit hp in
theorem Registered.reconstructLabels {groups metrics : Finset (List Byte)}
    (hr : h.Registered groups metrics) {sgid mid : ℕ}
    (hkey : h.forwardIndex (sgid, mid) = some p) :
    h.reconstructLabels sgid mid =
      (h.firstLabel (labelMetric a)).toList ++ h.restLabels (labelSourceGroup a) := by
  obtain ⟨s, m, hs, hm, hp⟩ := ha
  obtain ⟨keys, hkeys⟩ := hr.forwards
  obtain ⟨rfl, rfl⟩ := Prod.mk.inj (hkeys.injective hkey hp)
  have hsgid : sgid < maxSourceNum := Nat.lt_of_le_of_lt (hr.sources.le hs) hr.sources_lt
  have hmid : mid < maxMetricNum := Nat.lt_of_le_of_lt (hr.metrics.le hm) hr.metrics_lt
  rw [TreeHead.reconstructLabels, if_pos hsgid, if_pos hmid, firstLabel, restLabels, hs, hm]
  rfl

end Reconstruct

end TreeHead

theorem head?_tail_of_reconstructed {first : List Byte → Option Label} {rest : List Byte → Labels}
    {lsets : List Labels} (hwf : ∀ lset ∈ lsets, WellFormed lset)
    (hfirst : ∀ a ∈ lsets, ∃ c ∈ lsets, labelMetric c = labelMetric a ∧
      first (labelMetric a) = c.head?)
    (hrest : ∀ a ∈ lsets, ∃ b ∈ lsets, labelSourceGroup b = labelSourceGroup a ∧
      rest (labelSourceGroup a) = b.tail)
    (hmem : ∀ a ∈ lsets, ∀ l,
      l ∈ (first (labelMetric a)).toList ++ rest (labelSourceGroup a) ↔ l ∈ a)
    {a : Labels} (ha : a ∈ lsets) :
    a.head? = first (labelMetric a) ∧ a.tail = rest (labelSourceGroup a) := by
  obtain ⟨b, hb, hgroup, hbtail⟩ := hrest a ha
  obtain ⟨c, hc, -, hchead⟩ := hfirst a ha
  obtain ⟨y, bt, rfl⟩ := exists_cons_of_ne_nil (hwf b hb).ne_nil
  obtain ⟨z, ct, rfl⟩ := exists_cons_of_ne_nil (hwf c hc).ne_nil
  rw [tail_cons] at hbtail
  rw [head?_cons] at hchead
  -- The entry of the sources comes from `b`, so `b` begins with the entry of its metric.
  have hy : y ∈ first (labelMetric (y :: bt)) := by
    have hyb := (hmem _ hb y).2 mem_cons_self
    rw [hgroup, hbtail, mem_append, Option.mem_toList] at hyb
    have hlt := (pairwise_cons.1 (hwf _ hb).pairwise).1
    exact hyb.resolve_right fun hbt => List.lt_irrefl _ (hlt y hbt)
  have hcut : a = z :: bt := (hwf a ha).cut_eq (hwf _ hb) rfl
    (fun hname => by
      rw [hname, hchead] at hy
      exact Option.some.inj hy)
    (fun l => by
      rw [← hmem a ha l, hchead, hbtail]
      rfl)
  rw [hchead, hbtail, hcut]
  exact ⟨rfl, rfl⟩

/-- The labels of every label set of a sequence of calls are reconstructed exactly when
label sets of the same metric begin with the same label, label sets with the same source
text agree after their first label, and there are ids for all sources and metrics. -/
theorem labelsReconstructed_iff (lsets : List Labels) (hwf : ∀ lset ∈ lsets, WellFormed lset) :
    LabelsReconstructed lsets ↔
      (∀ a ∈ lsets, ∀ b ∈ lsets, labelMetric a = labelMetric b → a.head? = b.head?) ∧
      (∀ a ∈ lsets, ∀ b ∈ lsets, labelSourceGroup a = labelSourceGroup b → a.tail = b.tail) ∧
      (lsets.map labelSourceGroup).toFinset.card < maxSourceNum ∧
      (lsets.map labelMetric).toFinset.card < maxMetricNum := by
  have hne : ∀ lset ∈ lsets, lset ≠ [] := fun lset hlset => (hwf lset hlset).ne_nil
  constructor
  · rintro ⟨series, h, hok, hlabels⟩
    obtain ⟨hr, -, hfinds⟩ := getOrCreateAll_eq_ok registered_init hne hok
    have hp := pooled_init.getOrCreateAll registered_init hne hok
    rw [Finset.union_empty, Finset.union_empty] at hr
    rw [Set.union_empty] at hp
    have hfind : ∀ a ∈ lsets, ∃ p, h.Finds a p ∧
        ∀ l, l ∈ (h.firstLabel (labelMetric a)).toList ++ h.restLabels (labelSourceGroup a) ↔
          l ∈ a := by
      intro a ha
      obtain ⟨i, hi⟩ := mem_iff_getElem?.1 ha
      obtain ⟨p, hpi, hap⟩ := hfinds i a hi
      obtain ⟨sgid, mid, hkey, hmem⟩ := hlabels i a p hi hpi
      rw [hr.reconstructLabels hap hkey] at hmem
      exact ⟨p, hap, hmem⟩
    have hcut : ∀ a ∈ lsets, a.head? = h.firstLabel (labelMetric a) ∧
        a.tail = h.restLabels (labelSourceGroup a) := by
      intro a ha
      refine head?_tail_of_reconstructed hwf (fun a ha => ?_) (fun a ha => ?_) (fun a ha => ?_) ha
      · obtain ⟨p, hap, -⟩ := hfind a ha
        exact hp.exists_firstLabel hap
      · obtain ⟨p, hap, -⟩ := hfind a ha
        exact hp.exists_restLabels hap
      · obtain ⟨p, -, hmem⟩ := hfind a ha
        exact hmem
    refine ⟨fun a ha b hb hname => ?_, fun a ha b hb hgroup => ?_, ?_, ?_⟩
    · rw [(hcut a ha).1, (hcut b hb).1, hname]
    · rw [(hcut a ha).2, (hcut b hb).2, hgroup]
    · exact hr.sources.count_eq ▸ hr.sources_lt
    · exact hr.metrics.count_eq ▸ hr.metrics_lt
  · rintro ⟨hhead, htail, hsource, hmetric⟩
    obtain ⟨⟨series, h⟩, hok⟩ := exists_getOrCreateAll registered_init hne
      (by rwa [Finset.union_empty]) (by rwa [Finset.union_empty])
    obtain ⟨hr, -, hfinds⟩ := getOrCreateAll_eq_ok registered_init hne hok
    have hp := pooled_init.getOrCreateAll registered_init hne hok
    rw [Set.union_empty] at hp
    refine ⟨series, h, hok, fun i a p hi hpi => ?_⟩
    obtain ⟨p', hpi', hap⟩ := hfinds i a hi
    obtain rfl : p' = p := Option.some.inj (hpi'.symm.trans hpi)
    have ha := mem_of_getElem? hi
    obtain ⟨c, hc, hname, hfirst⟩ := hp.exists_firstLabel hap
    obtain ⟨b, hb, hgroup, hrest⟩ := hp.exists_restLabels hap
    obtain ⟨sgid, mid, -, -, hkey⟩ := id hap
    refine ⟨sgid, mid, hkey, fun l => ?_⟩
    rw [hr.reconstructLabels hap hkey, hfirst, hrest, hhead c hc a ha hname,
      htail b hb a ha hgroup]
    obtain ⟨x, at', rfl⟩ := exists_cons_of_ne_nil (hne a ha)
    rfl

/-- The reconstruction holds for two sources of one metric. -/
theorem labelsReconstructed_twoSources : LabelsReconstructed twoSources :=
  (labelsReconstructed_iff twoSources (by decide)).2 (by decide +kernel)

/-- Two series of the metric `m`, the second with the label `A="1"`, which is sorted
before `__name__`. -/
def capitalLabel : List Labels :=
  [[⟨metricName, [109]⟩, ⟨[97], [49]⟩], [⟨[65], [49]⟩, ⟨metricName, [109]⟩, ⟨[97], [49]⟩]]

/-- The label `A` of the second series is lost. -/
theorem labelsReconstructed_capital :
    (∀ lset ∈ capitalLabel, WellFormed lset) ∧ ¬ LabelsReconstructed capitalLabel := by
  refine ⟨by decide, ?_⟩
  rintro ⟨series, h, hok, hlabels⟩
  have hne : ∀ lset ∈ capitalLabel, lset ≠ [] := by decide
  obtain ⟨hr, -, hfinds⟩ := getOrCreateAll_eq_ok registered_init hne hok
  obtain ⟨p, hp, hap⟩ := hfinds 1 _ rfl
  obtain ⟨sgid, mid, hkey, hmem⟩ := hlabels 1 _ p rfl hp
  rw [hr.reconstructLabels hap hkey] at hmem
  have hpools := congrArg (fun r => r.toOption.map fun r => (r.2.firstLabel [109],
    r.2.restLabels (labelSourceGroup [⟨[65], [49]⟩, ⟨metricName, [109]⟩, ⟨[97], [49]⟩]))) hok
  have heval : ((TreeHead.init.getOrCreateAll capitalLabel).toOption.map fun r =>
      (r.2.firstLabel [109],
        r.2.restLabels (labelSourceGroup [⟨[65], [49]⟩, ⟨metricName, [109]⟩, ⟨[97], [49]⟩]))) =
      some (some ⟨metricName, [109]⟩, [⟨metricName, [109]⟩, ⟨[97], [49]⟩]) := by
    decide +kernel
  obtain ⟨hfirst, hrest⟩ := Prod.mk.inj (Option.some.inj (hpools.symm.trans heval))
  have hA := (hmem ⟨[65], [49]⟩).2 (by decide)
  rw [show labelMetric [⟨[65], [49]⟩, ⟨metricName, [109]⟩, ⟨[97], [49]⟩] = [109] by decide,
    hfirst, hrest] at hA
  exact absurd hA (by decide)

end PromTCS
