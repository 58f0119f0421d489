import PromTCS.Db.HandleInsert
import PromTCS.Head.Select

/-!
# Remote read

`HandleQuery` keeps the `EQ` matchers of a query and passes them on to a
`TreeQuerierSeriesSet`. This intersects the postings of the source labels and looks up
the id of the metric, and a timeseries is added to the result for every source of the
intersection, left empty if the source has no series of this metric.

What a series yields when it is iterated over is a parameter, as is the meaning of
regular expressions. The snappy and protobuf coding is left out.
-/

namespace PromTCS

open List

/-- `prometheus::LabelMatcher_Type`. -/
inductive MatcherType
  | eq
  | neq
  | re
  | nre
deriving DecidableEq, Repr

structure LabelMatcher where
  type : MatcherType
  name : List Byte
  value : List Byte
deriving DecidableEq, Repr

structure Query where
  startTimestampMs : ℤ
  endTimestampMs : ℤ
  matchers : List LabelMatcher
deriving DecidableEq, Repr

namespace Query

def equalMatchers (q : Query) : Labels :=
  (q.matchers.filter fun m => m.type = .eq).map fun m => ⟨m.name, m.value⟩

def metricMatcher (q : Query) : Option Label :=
  PromTCS.metricMatcher q.equalMatchers

end Query

/-- A `TreeQuerierSeriesSet`; `p` are the ids that `p_` still has. -/
structure TreeQuerierSeriesSet where
  p : List ℕ
  mid : ℕ
  sgid : ℕ
deriving DecidableEq, Repr

def TreeQuerierSeriesSet.create (h : TreeHead) (l : Labels) :
    Except Fault (TreeQuerierSeriesSet × TreeHead) :=
  match h.select l with
  | none => throw .diverges
  | some p =>
    match metricMatcher l with
    | none => pure (⟨p, 0, 0⟩, h)
    | some m => do
      let ((mid, isExist), h) ← h.getOrCreateMetricId [m] true
      pure (⟨p, if isExist then mid else 0, 0⟩, h)

namespace TreeHead

variable (samples : Query → ℕ → ℕ → List Sample) (h : TreeHead)

/-- The body of the loop over the series set; `at()` is a null pointer for ids without a
series. -/
def timeSeries (q : Query)
    (mid sgid : ℕ) : TimeSeries :=
  if mid = 0 ∨ sgid = 0 ∨ h.forwardIndex (sgid, mid) = none then { labels := [], samples := [] }
  else { labels := h.reconstructLabels sgid mid, samples := samples q sgid mid }

def query (q : Query) :
    Except Fault (List TimeSeries × TreeHead) := do
  let (s, h) ← TreeQuerierSeriesSet.create h q.equalMatchers
  pure (if s.mid = 0 then [] else s.p.map (h.timeSeries samples q s.mid), h)

/-- `HandleQuery`, with the results of the response. -/
def handleQuery (samples : Query → ℕ → ℕ → List Sample) (h : TreeHead) :
    List Query → Except Fault (List (List TimeSeries) × TreeHead)
  | [] => pure ([], h)
  | q :: qs => do
    let (result, h) ← h.query samples q
    let (results, h) ← h.handleQuery samples qs
    pure (result :: results, h)

end TreeHead

/-! ## What a query asks for -/

def valueOf (lset : Labels) (name : List Byte) : List Byte :=
  match lset.find? fun l => l.label == name with
  | some l => l.value
  | none => []

variable (regex : List Byte → List Byte → Bool)

def LabelMatcher.matchesLabels (m : LabelMatcher)
    (lset : Labels) : Bool :=
  match m.type with
  | .eq => valueOf lset m.name == m.value
  | .neq => valueOf lset m.name != m.value
  | .re => regex m.value (valueOf lset m.name)
  | .nre => !regex m.value (valueOf lset m.name)

def Query.matchesLabels (q : Query) (lset : Labels) : Bool :=
  q.matchers.all fun m => m.matchesLabels regex lset

def Query.Exact (stored : List Labels) (q : Query)
    (result : List TimeSeries) : Prop :=
  (result.map TimeSeries.labels).Perm (stored.filter (q.matchesLabels regex))

instance (regex : List Byte → List Byte → Bool) (stored : List Labels) (q : Query)
    (result : List TimeSeries) : Decidable (q.Exact regex stored result) :=
  inferInstanceAs (Decidable (List.Perm _ _))

/-- Every series asked for has the labels of the `EQ` matchers, of which one is for the
metric and one for another label; and if the metric is known, then every source with these
labels has a series of the metric, and it is asked for. -/
structure Query.Answerable (regex : List Byte → List Byte → Bool) (stored : List Labels)
    (known : List Byte → Prop) (q : Query) : Prop where
  asked : ∀ a ∈ stored, q.matchesLabels regex a = true →
    q.metricMatcher ≠ none ∧ sourceLabels q.equalMatchers ≠ [] ∧
      ∀ m ∈ sourceLabels q.equalMatchers, m ∈ a
  found : ∀ m, q.metricMatcher = some m → known m.value → sourceLabels q.equalMatchers ≠ [] →
    ∀ a ∈ stored, (∀ m ∈ sourceLabels q.equalMatchers, m ∈ a) →
      m :: a.tail ∈ stored ∧ q.matchesLabels regex (m :: a.tail) = true

/-- The labels of the timeseries of a result. There are none if the query has no `EQ`
matcher for the metric, or for another label, or if the metric is not known. Else there
is a timeseries for every source with the labels of the other matchers, empty if the
source has no series of the metric. -/
structure Query.Describes (stored : List Labels) (known : List Byte → Prop) (q : Query)
    (labels : List Labels) : Prop where
  nothing : (∀ m, q.metricMatcher = some m → known m.value → sourceLabels q.equalMatchers = []) →
    labels = []
  sources : ∀ m, q.metricMatcher = some m → known m.value → sourceLabels q.equalMatchers ≠ [] →
    ∃ tails : List Labels, tails.Nodup ∧
      (∀ t, t ∈ tails ↔ (∃ a ∈ stored, a.tail = t) ∧ ∀ x ∈ sourceLabels q.equalMatchers, x ∈ t) ∧
      labels = tails.map fun t => if m :: t ∈ stored then m :: t else []

section Meaning

variable {regex : List Byte → List Byte → Bool} {q : Query}

theorem Query.label_of_metricMatcher {m : Label} (hm : q.metricMatcher = some m) :
    m ∈ q.equalMatchers ∧ m.label = metricName :=
  ⟨mem_of_find?_eq_some hm, by simpa using find?_some hm⟩

theorem Query.labelMetric_of_matches {a : Labels} (hfirst : MetricFirst a)
    (hmatch : q.matchesLabels regex a = true) {m : Label} (hm : q.metricMatcher = some m) :
    m = ⟨metricName, labelMetric a⟩ := by
  obtain ⟨hmem, hname⟩ := Query.label_of_metricMatcher hm
  obtain ⟨matcher, hmatcher, rfl⟩ := mem_map.1 hmem
  rw [mem_filter, decide_eq_true_eq] at hmatcher
  have hvalue := all_eq_true.1 hmatch matcher hmatcher.1
  simp only [LabelMatcher.matchesLabels, hmatcher.2, beq_iff_eq] at hvalue
  obtain ⟨m', src, rfl, -⟩ := hfirst
  rw [← hvalue, show matcher.name = metricName from hname]
  simp [valueOf, labelMetric]

theorem mem_iff_mem_tail {a : Labels} (hfirst : MetricFirst a) {l : Labels} {x : Label}
    (hx : x ∈ sourceLabels l) : x ∈ a ↔ x ∈ a.tail := by
  obtain ⟨m, src, rfl, -⟩ := hfirst
  rw [sourceLabels, mem_filter] at hx
  rw [mem_cons, tail_cons]
  refine ⟨fun h => h.resolve_left ?_, Or.inr⟩
  rintro rfl
  simp at hx

theorem Query.Describes.exact_iff {stored : List Labels} {known : List Byte → Prop}
    (hnodup : stored.Nodup) (hfirst : ∀ a ∈ stored, MetricFirst a)
    (hknown : ∀ a ∈ stored, known (labelMetric a)) {result : List TimeSeries}
    (hd : q.Describes stored known (result.map TimeSeries.labels)) :
    q.Exact regex stored result ↔ q.Answerable regex stored known := by
  by_cases hsome : ∃ m, q.metricMatcher = some m ∧ known m.value ∧ sourceLabels q.equalMatchers ≠ []
  · obtain ⟨m, hm, hmk, hne⟩ := hsome
    obtain ⟨tails, htails, hmem, hlabels⟩ := hd.sources m hm hmk hne
    rw [Query.Exact, hlabels]
    constructor
    · intro hperm
      have hin : ∀ t ∈ tails, m :: t ∈ stored ∧ q.matchesLabels regex (m :: t) = true := by
        intro t ht
        have ht' := hperm.mem_iff.1 (mem_map_of_mem ht)
        rw [mem_filter] at ht'
        split_ifs at ht' with hs
        · exact ht'
        · obtain ⟨m', src, hcons, -⟩ := hfirst _ ht'.1
          exact absurd hcons (cons_ne_nil _ _).symm
      constructor
      · intro a ha hmatch
        obtain ⟨t, ht, hat⟩ := mem_map.1
          (hperm.mem_iff.2 (mem_filter.2 ⟨ha, hmatch⟩))
        rw [if_pos (hin t ht).1] at hat
        refine ⟨by rw [hm]; exact Option.some_ne_none m, hne, fun x hx => ?_⟩
        rw [← hat]
        exact mem_cons_of_mem m (((hmem t).1 ht).2 x hx)
      · intro m' hm' _ _ a ha hall
        rw [hm, Option.some.injEq] at hm'
        rw [← hm']
        refine hin a.tail ((hmem _).2 ⟨⟨a, ha, rfl⟩, fun x hx => ?_⟩)
        exact (mem_iff_mem_tail (hfirst a ha) hx).1 (hall x hx)
    · intro hans
      have hin : ∀ t ∈ tails, m :: t ∈ stored ∧ q.matchesLabels regex (m :: t) = true := by
        intro t ht
        obtain ⟨⟨a, ha, rfl⟩, hall⟩ := (hmem t).1 ht
        exact hans.found m hm hmk hne a ha fun x hx => mem_of_mem_tail (hall x hx)
      have hmap : (tails.map fun t => if m :: t ∈ stored then m :: t else []) =
          tails.map (m :: ·) :=
        map_congr_left fun t ht => if_pos (hin t ht).1
      rw [hmap, perm_ext_iff_of_nodup
        (htails.map fun _ _ heq => (List.cons.inj heq).2) (hnodup.filter _)]
      intro a
      rw [mem_map, mem_filter]
      constructor
      · rintro ⟨t, ht, rfl⟩
        exact hin t ht
      · rintro ⟨ha, hmatch⟩
        obtain ⟨-, -, hall⟩ := hans.asked a ha hmatch
        refine ⟨a.tail, (hmem _).2 ⟨⟨a, ha, rfl⟩, fun x hx => ?_⟩, ?_⟩
        · exact (mem_iff_mem_tail (hfirst a ha) hx).1 (hall x hx)
        · rw [Query.labelMetric_of_matches (hfirst a ha) hmatch hm]
          exact (hfirst a ha).labelMetric_eq.symm
  · have hlabels := hd.nothing fun m hm hmk => by
      by_contra hne
      exact hsome ⟨m, hm, hmk, hne⟩
    rw [Query.Exact, hlabels, nil_perm, filter_eq_nil_iff]
    constructor
    · intro hnone
      refine ⟨fun a ha hmatch => absurd hmatch (hnone a ha), fun m hm hmk hne => ?_⟩
      exact absurd ⟨m, hm, hmk, hne⟩ hsome
    · intro hans a ha hmatch
      obtain ⟨hname, hne, -⟩ := hans.asked a ha hmatch
      obtain ⟨m, hm⟩ := Option.ne_none_iff_exists'.1 hname
      refine hsome ⟨m, hm, ?_, hne⟩
      rw [Query.labelMetric_of_matches (hfirst a ha) hmatch hm]
      exact hknown a ha

end Meaning

/-! ## Queries of a head -/

namespace TreeHead

def Known (h : TreeHead) (m : List Byte) : Prop := h.metricThmap m ≠ none

section Metric

variable {h : TreeHead} {stored : List Labels} (hc : h.Catalogues stored) {m : Label}
  (hname : m.label = metricName)

include hname

theorem labelMetric_singleton : labelMetric [m] = m.value := by
  simp [labelMetric, hname]

include hc

theorem Catalogues.getOrCreateMetricId {res : (ℕ × Bool) × TreeHead}
    (hok : h.getOrCreateMetricId [m] true = .ok res) : res.2.Catalogues stored := by
  have hne : [m] ≠ [] := cons_ne_nil _ _
  obtain ⟨groups, metrics, hr⟩ := hc.registered
  obtain ⟨keys, hkeys⟩ := hr.forwards
  obtain ⟨-, hsources, hmetrics, hforwards, hlt⟩ := getOrCreateMetricId_eq_ok hne hok
  obtain ⟨hsource, hmetric, hindex, -⟩ := getOrCreateMetricId_pools hne hok
  have hsourceThmap : res.2.sourceThmap = h.sourceThmap := congrArg Interner.table hsources
  have hforward : res.2.forwardIndex = h.forwardIndex := congrArg Interner.table hforwards
  have hfinds : ∀ {a p}, h.Finds a p → res.2.Finds a p := by
    rintro a p ⟨s, mid, hs, hm, hp⟩
    refine ⟨s, mid, by rw [hsourceThmap, hs], ?_, by rw [hforward, hp]⟩
    exact (congrFun (congrArg Interner.table hmetrics) _).trans
      (Interner.table_intern_of_some hm)
  refine ⟨⟨groups, insert (labelMetric [m]) metrics, ?_⟩, hc.nodup, hc.metricFirst, hc.tail_eq, ?_, ?_, ?_, ?_, ?_, ?_⟩
  · exact ⟨hsources ▸ hr.sources, hmetrics ▸ hr.metrics.intern _, ⟨keys, hforwards ▸ hkeys⟩,
      by rw [show res.2.lastSourceGroupId = h.lastSourceGroupId from
        congrArg Interner.count hsources]; exact hr.sources_lt, hlt hr.metrics_lt⟩
  · intro a ha
    obtain ⟨p, hp⟩ := hc.finds a ha
    exact ⟨p, hfinds hp⟩
  · rw [hsourceThmap, hsource]
    exact hc.source
  · intro name mid hmid
    rw [hmetric]
    have hmid' : (h.metrics.intern (labelMetric [m])).table name = some mid := by
      rwa [← hmetrics]
    rcases Interner.table_intern_cases hmid' with hold | ⟨hnew, rfl, rfl⟩
    · rw [metricPool_of_le [m] (hr.metrics.le hold), hc.metric hold]
    · refine (metricPool_new hnew).trans ?_
      rw [labelMetric_singleton hname, head?_cons, ← hname]
  · intro key series hseries
    rw [hforward] at hseries
    obtain ⟨a, ha, hp⟩ := hc.forward hseries
    exact ⟨a, ha, hfinds hp⟩
  · rw [hindex]
    exact hc.postingsOk
  · intro l id
    rw [postings, hindex, hsourceThmap]
    exact hc.mem_postings

end Metric

section Query

variable {samples : Query → ℕ → ℕ → List Sample} {h : TreeHead} {stored : List Labels}
  (hc : h.Catalogues stored)

include hc

theorem Catalogues.labels_timeSeries (samples : Query → ℕ → ℕ → List Sample) (q : Query) {a : Labels} (ha : a ∈ stored) {id mid : ℕ}
    (hs : h.sourceThmap (labelSourceGroup a) = some id) {m : List Byte}
    (hm : h.metricThmap m = some mid) :
    (h.timeSeries samples q mid id).labels =
      if ⟨metricName, m⟩ :: a.tail ∈ stored then ⟨metricName, m⟩ :: a.tail else [] := by
  obtain ⟨groups, metrics, hr⟩ := hc.registered
  have hmid : mid ≠ 0 := Nat.pos_iff_ne_zero.1 (hr.metrics.pos hm)
  have hid : id ≠ 0 := Nat.pos_iff_ne_zero.1 (hr.sources.pos hs)
  have hmid' : mid < maxMetricNum := Nat.lt_of_le_of_lt (hr.metrics.le hm) hr.metrics_lt
  have hid' : id < maxSourceNum := Nat.lt_of_le_of_lt (hr.sources.le hs) hr.sources_lt
  have hforward := hc.forwardIndex_iff ha hs hm
  rw [timeSeries]
  cases hf : h.forwardIndex (id, mid) with
  | none =>
    rw [hf] at hforward
    rw [if_pos (Or.inr (Or.inr rfl)), if_neg fun hmem => ?_]
    obtain ⟨series, hseries⟩ := hforward.2 hmem
    cases hseries
  | some series =>
    rw [if_neg (by simp [hmid, hid]), if_pos (hforward.1 ⟨series, hf⟩), reconstructLabels,
      if_pos hmid', if_pos hid', hc.metric hm, hc.tail_eq_sourceLabelsPtr ha hs]
    rfl

theorem Catalogues.tails_select (l : Labels) (hne : sourceLabels l ≠ []) {v : List ℕ}
    (hasc : v.Pairwise (· < ·))
    (hv : ∀ id, id ∈ v ↔ sourceLabels l ≠ [] ∧ ∀ m ∈ sourceLabels l, id ∈ h.postings m) :
    (v.map h.sourceLabelsPtr).Nodup ∧
      ∀ t, t ∈ v.map h.sourceLabelsPtr ↔ (∃ a ∈ stored, a.tail = t) ∧ ∀ x ∈ sourceLabels l, x ∈ t := by
  have hmem : ∀ id, id ∈ v ↔ ∃ a ∈ stored, h.sourceThmap (labelSourceGroup a) = some id ∧
      ∀ m ∈ sourceLabels l, m ∈ a.tail := fun id => by
    rw [hv, hc.forall_mem_postings hne]
    exact and_iff_right hne
  constructor
  · refine List.Nodup.map_on (fun id hid id' hid' heq => ?_) (hasc.imp Nat.ne_of_lt)
    obtain ⟨a, ha, hs, -⟩ := (hmem id).1 hid
    obtain ⟨b, hb, hs', -⟩ := (hmem id').1 hid'
    rw [hc.tail_eq_sourceLabelsPtr ha hs, hc.tail_eq_sourceLabelsPtr hb hs'] at heq
    have hgroup : labelSourceGroup a = labelSourceGroup b := by
      rw [labelSourceGroup, labelSourceGroup, (hc.metricFirst a ha).sourceLabels_eq,
        (hc.metricFirst b hb).sourceLabels_eq, heq]
    rw [hgroup, hs'] at hs
    exact (Option.some.inj hs).symm
  · intro t
    rw [mem_map]
    constructor
    · rintro ⟨id, hid, rfl⟩
      obtain ⟨a, ha, hs, hall⟩ := (hmem id).1 hid
      rw [hc.tail_eq_sourceLabelsPtr ha hs]
      exact ⟨⟨a, ha, rfl⟩, hall⟩
    · rintro ⟨⟨a, ha, rfl⟩, hall⟩
      obtain ⟨series, id, mid, hs, -⟩ := hc.finds a ha
      exact ⟨id, (hmem id).2 ⟨a, ha, hs, hall⟩, hc.tail_eq_sourceLabelsPtr ha hs⟩

theorem Catalogues.query_eq_ok {q : Query} {result : List TimeSeries} {h' : TreeHead}
    (hok : h.query samples q = .ok (result, h')) :
    h'.Catalogues stored ∧
      h'.metrics = q.metricMatcher.elim h.metrics (fun m => h.metrics.intern m.value) ∧
      q.Describes stored h.Known (result.map TimeSeries.labels) := by
  obtain ⟨v, hv, hasc, hmem⟩ := hc.select q.equalMatchers
  obtain ⟨set, hset, hok⟩ := Run.bind_eq_ok hok
  cases hok
  rw [TreeQuerierSeriesSet.create, hv, ← Query.metricMatcher] at hset
  cases hm : q.metricMatcher with
  | none =>
    simp only [hm] at hset
    cases hset
    refine ⟨hc, rfl, fun _ => rfl, fun m hm' => ?_⟩
    rw [hm] at hm'
    cases hm'
  | some m =>
    obtain ⟨hmq, hname⟩ := Query.label_of_metricMatcher hm
    simp only [hm] at hset
    obtain ⟨res, hres, hset⟩ := Run.bind_eq_ok hset
    cases hset
    obtain ⟨hid, -, hmetrics, -⟩ := getOrCreateMetricId_eq_ok (cons_ne_nil _ _) hres
    obtain ⟨-, -, -, hexist⟩ := getOrCreateMetricId_pools (cons_ne_nil _ _) hres
    rw [labelMetric_singleton hname] at hid hmetrics hexist
    have hc' := hc.getOrCreateMetricId hname hres
    refine ⟨hc', hmetrics, ?_⟩
    cases hmid : h.metricThmap m.value with
    | none =>
      simp only [hexist, hmid]
      refine ⟨fun _ => rfl, fun m' hm' hknown => ?_⟩
      rw [hm, Option.some.injEq] at hm'
      exact absurd (hm' ▸ hmid) hknown
    | some mid =>
      have hcall : h.getOrCreateMetricId [m] true = .ok ((mid, true), h) := by
        simp [TreeHead.getOrCreateMetricId, labelMetric_singleton hname, hmid]
        rfl
      obtain rfl := Except.ok.inj (hres.symm.trans hcall)
      obtain ⟨groups, metrics, hr⟩ := hc.registered
      have hne : mid ≠ 0 := Nat.pos_iff_ne_zero.1 (hr.metrics.pos hmid)
      simp only [if_true, if_neg hne, map_map]
      constructor
      · intro hnil
        have hv' : v = [] := eq_nil_iff_forall_not_mem.2 fun id hid =>
          ((hmem id).1 hid).1 (hnil m hm (by rw [Known, hmid]; exact Option.some_ne_none mid))
        rw [hv']
        rfl
      · intro m' hm' _ hsources
        rw [hm, Option.some.injEq] at hm'
        obtain ⟨hnodup, htails⟩ := hc.tails_select q.equalMatchers hsources hasc hmem
        refine ⟨_, hnodup, htails, ?_⟩
        rw [map_map]
        refine map_congr_left fun id hid => ?_
        obtain ⟨a, ha, hs, -⟩ := (hc.forall_mem_postings hsources).1 ((hmem id).1 hid).2
        have hlabels := hc.labels_timeSeries samples q ha hs hmid
        rw [← hname] at hlabels
        rw [Function.comp_apply, Function.comp_apply, hlabels, ← hm',
          hc.tail_eq_sourceLabelsPtr ha hs]

theorem Catalogues.exists_query {q : Query}
    (hcap : ∀ m, q.metricMatcher = some m → (h.metrics.intern m.value).count < maxMetricNum) :
    ∃ res, h.query samples q = .ok res := by
  obtain ⟨v, hv, -⟩ := hc.select q.equalMatchers
  cases hm : metricMatcher q.equalMatchers with
  | none =>
    simp only [query, TreeQuerierSeriesSet.create, hv, hm, bind, Except.bind, pure, Except.pure]
    exact ⟨_, rfl⟩
  | some m =>
    obtain ⟨-, hname⟩ := Query.label_of_metricMatcher hm
    have hcap' := hcap m hm
    rw [← labelMetric_singleton hname] at hcap'
    obtain ⟨res, hres⟩ := @exists_getOrCreateMetricId h [m] (cons_ne_nil _ _) true hcap'
    simp only [query, TreeQuerierSeriesSet.create, hv, hm, hres, bind, Except.bind, pure, Except.pure]
    exact ⟨_, rfl⟩

end Query

/-! ## Requests -/

def asked (qs : List Query) : Finset (List Byte) :=
  (qs.filterMap fun q => q.metricMatcher.map Label.value).toFinset

theorem asked_cons (q : Query) (qs : List Query) :
    asked (q :: qs) = q.metricMatcher.elim (asked qs) (fun m => insert m.value (asked qs)) := by
  cases hm : q.metricMatcher <;> simp [asked, hm]

def KnownAfter (h : TreeHead) (qs : List Query) (m : List Byte) : Prop :=
  h.Known m ∨ m ∈ asked qs

section Request

variable {samples : Query → ℕ → ℕ → List Sample} {h : TreeHead} {stored : List Labels}
  (hc : h.Catalogues stored) {metrics : Finset (List Byte)} (hv : h.metrics.Valid metrics)

include hc hv

theorem Catalogues.metrics_query {q : Query} {result : List TimeSeries} {h' : TreeHead}
    (hok : h.query samples q = .ok (result, h')) :
    h'.metrics.Valid (q.metricMatcher.elim metrics fun m => insert m.value metrics) ∧
      ∀ qs, h'.KnownAfter qs = h.KnownAfter (q :: qs) := by
  obtain ⟨-, hmetrics, -⟩ := hc.query_eq_ok hok
  have hvalid : h'.metrics.Valid (q.metricMatcher.elim metrics fun m => insert m.value metrics) := by
    rw [hmetrics]
    cases q.metricMatcher with
    | none => exact hv
    | some m => exact hv.intern m.value
  have hknown : ∀ {h : TreeHead} {metrics : Finset (List Byte)}, h.metrics.Valid metrics →
      ∀ m, h.Known m ↔ m ∈ metrics := fun hv m => by
    rw [hv.mem_iff, Known, Option.ne_none_iff_exists']
    rfl
  refine ⟨hvalid, fun qs => funext fun m => propext ?_⟩
  rw [KnownAfter, KnownAfter, hknown hvalid, hknown hv, asked_cons]
  cases q.metricMatcher with
  | none => rfl
  | some m' => simp only [Option.elim_some, Finset.mem_insert, or_left_comm, or_assoc]

theorem Catalogues.handleQuery_eq_ok {qs : List Query} {results : List (List TimeSeries)}
    {h' : TreeHead} (hok : h.handleQuery samples qs = .ok (results, h')) :
    h'.Catalogues stored ∧ h'.metrics.Valid (asked qs ∪ metrics) ∧ results.length = qs.length ∧
      ∀ (i : ℕ) (q : Query) (result : List TimeSeries), qs[i]? = some q →
        results[i]? = some result →
        q.Describes stored (h.KnownAfter (qs.take i)) (result.map TimeSeries.labels) := by
  induction qs generalizing h metrics results with
  | nil =>
    cases hok
    exact ⟨hc, by simpa [asked] using hv, rfl, fun i q result hq => by cases hq⟩
  | cons q qs ih =>
    obtain ⟨res, hq, hok⟩ := Run.bind_eq_ok hok
    obtain ⟨rest, hrest, hok⟩ := Run.bind_eq_ok hok
    cases hok
    obtain ⟨hc', -, hdescr⟩ := hc.query_eq_ok hq
    obtain ⟨hv', hknown⟩ := hc.metrics_query hv hq
    obtain ⟨hc₂, hv₂, hlen, hdescr₂⟩ := ih hc' hv' hrest
    refine ⟨hc₂, ?_, congrArg Nat.succ hlen, ?_⟩
    · rw [asked_cons]
      cases hm : q.metricMatcher with
      | none => rwa [hm] at hv₂
      | some m =>
        rw [hm] at hv₂
        rw [Option.elim_some, Finset.insert_union, ← Finset.union_insert]
        exact hv₂
    · intro i q' result hq' hresult
      cases i with
      | zero =>
        cases hq'
        cases hresult
        have hnone : h.KnownAfter [] = h.Known := by
          funext m
          simp [KnownAfter, asked]
        rw [take_zero, hnone]
        exact hdescr
      | succ i =>
        rw [take_succ_cons, ← hknown]
        exact hdescr₂ i q' result hq' hresult

theorem Catalogues.exists_handleQuery {qs : List Query}
    (hcap : (asked qs ∪ metrics).card < maxMetricNum) :
    ∃ res, h.handleQuery samples qs = .ok res := by
  induction qs generalizing h metrics with
  | nil => exact ⟨_, rfl⟩
  | cons q qs ih =>
    rw [asked_cons] at hcap
    have hcap' : (asked qs ∪ q.metricMatcher.elim metrics fun m => insert m.value metrics).card <
        maxMetricNum := by
      cases hm : q.metricMatcher with
      | none => rwa [hm] at hcap
      | some m =>
        rw [hm, Option.elim_some, Finset.insert_union, ← Finset.union_insert] at hcap
        exact hcap
    obtain ⟨res, hres⟩ := @Catalogues.exists_query samples h stored hc q fun m hm => by
      rw [(hv.intern m.value).count_eq]
      rw [hm] at hcap'
      exact Nat.lt_of_le_of_lt (Finset.card_le_card Finset.subset_union_right) hcap'
    obtain ⟨hc', -⟩ := hc.query_eq_ok hres
    obtain ⟨hv', -⟩ := hc.metrics_query hv hres
    obtain ⟨rest, hrest⟩ := ih hc' hv' hcap'
    simp only [handleQuery, hres, hrest, bind, Except.bind]
    exact ⟨_, rfl⟩

end Request

end TreeHead

/-! ## Runs of the database -/

structure TreeRemoteDB where
  head : TreeHead
  stored : List Labels

namespace TreeRemoteDB

def init : TreeRemoteDB where
  head := .init
  stored := []

/-- A series is written for the first time, or again, or a request is answered. -/
inductive Op
  | insert (lset : Labels)
  | read (queries : List Query)

def Allowed (db : TreeRemoteDB) : Op → Prop
  | .insert lset => TreeHead.Insertable db.stored lset
  | .read _ => True

def step (samples : Query → ℕ → ℕ → List Sample) (db : TreeRemoteDB) :
    Op → Except Fault TreeRemoteDB
  | .insert lset => do
    let (_, head) ← db.head.getOrCreateByThmap lset
    pure { head := head, stored := db.stored.insert lset }
  | .read queries => do
    let (_, head) ← db.head.handleQuery samples queries
    pure { db with head := head }

def ReadExact (regex : List Byte → List Byte → Bool) (samples : Query → ℕ → ℕ → List Sample)
    (db : TreeRemoteDB) (queries : List Query) : Prop :=
  ∃ results head, db.head.handleQuery samples queries = .ok (results, head) ∧
    results.length = queries.length ∧
    ∀ (i : ℕ) (q : Query) (result : List TimeSeries), queries[i]? = some q →
      results[i]? = some result → q.Exact regex db.stored result

theorem catalogues_of_reaches {samples : Query → ℕ → ℕ → List Sample} {db : TreeRemoteDB}
    (hdb : Run.Reaches Allowed (step samples) init db) : db.head.Catalogues db.stored := by
  refine hdb.invariant (P := fun db => db.head.Catalogues db.stored) TreeHead.catalogues_init
    fun db op db' hc hallowed hstep => ?_
  cases op with
  | insert lset =>
    obtain ⟨res, hok, hstep⟩ := Run.bind_eq_ok hstep
    cases hstep
    exact hc.getOrCreateByThmap hallowed hok
  | read queries =>
    obtain ⟨res, hok, hstep⟩ := Run.bind_eq_ok hstep
    cases hstep
    obtain ⟨groups, metrics, hr⟩ := hc.registered
    exact (hc.handleQuery_eq_ok hr.metrics hok).1

end TreeRemoteDB

open TreeRemoteDB

/-- In every state a database reaches, a request is answered exactly if all of its queries
can be answered from the postings, given the metrics that are known by then, and there are
ids for the metrics it asks for. -/
theorem handleQuery_readExact_iff
    (samples : Query → ℕ → ℕ → List Sample) (db : TreeRemoteDB)
    (hdb : Run.Reaches TreeRemoteDB.Allowed (step samples) .init db)
    (queries : List Query) :
    db.ReadExact regex samples queries ↔
      (∀ (i : ℕ) (q : Query), queries[i]? = some q →
        q.Answerable regex db.stored (db.head.KnownAfter (queries.take i))) ∧
      db.head.lastMetricId +
          ((TreeHead.asked queries).filter fun m => db.head.metricThmap m = none).card <
        maxMetricNum := by
  have hc := catalogues_of_reaches hdb
  obtain ⟨groups, metrics, hr⟩ := hc.registered
  have hcard : db.head.lastMetricId +
      ((TreeHead.asked queries).filter fun m => db.head.metricThmap m = none).card =
        (TreeHead.asked queries ∪ metrics).card := by
    have hnew : ((TreeHead.asked queries).filter fun m => db.head.metricThmap m = none) =
        TreeHead.asked queries \ metrics := by
      ext m
      rw [Finset.mem_filter, Finset.mem_sdiff, hr.metrics.mem_iff, ← Option.ne_none_iff_exists',
        not_not]
      rfl
    rw [hnew, ← Finset.card_sdiff_add_card, Nat.add_comm]
    exact congrArg _ hr.metrics.count_eq
  have hexact : ∀ (i : ℕ) (q : Query) (result : List TimeSeries),
      q.Describes db.stored (db.head.KnownAfter (queries.take i)) (result.map TimeSeries.labels) →
      (q.Exact regex db.stored result ↔
        q.Answerable regex db.stored (db.head.KnownAfter (queries.take i))) := by
    intro i q result hd
    refine hd.exact_iff hc.nodup hc.metricFirst fun a ha => Or.inl ?_
    obtain ⟨p, sgid, mid, -, hm, -⟩ := hc.finds a ha
    rw [TreeHead.Known, hm]
    exact Option.some_ne_none mid
  rw [hcard]
  constructor
  · rintro ⟨results, head, hok, hlen, hex⟩
    obtain ⟨hc', hv, -, hd⟩ := hc.handleQuery_eq_ok hr.metrics hok
    constructor
    · intro i q hq
      have hi : i < results.length := hlen ▸ (List.getElem?_eq_some_iff.1 hq).1
      have hresult := getElem?_eq_getElem hi
      exact (hexact i q _ (hd i q _ hq hresult)).1 (hex i q _ hq hresult)
    · obtain ⟨groups', metrics', hr'⟩ := hc'.registered
      rw [← hv.count_eq]
      exact hr'.metrics_lt
  · rintro ⟨hans, hcap⟩
    obtain ⟨⟨results, head⟩, hok⟩ := @TreeHead.Catalogues.exists_handleQuery samples db.head
      db.stored hc metrics hr.metrics queries hcap
    obtain ⟨-, -, hlen, hd⟩ := hc.handleQuery_eq_ok hr.metrics hok
    refine ⟨results, head, hok, hlen, fun i q result hq hresult => ?_⟩
    exact (hexact i q result (hd i q result hq hresult)).2 (hans i q hq)

namespace TreeRemoteDB

/-- The series `m` with the label `a="1"`. -/
def oneSeries : Labels := [⟨metricName, [109]⟩, ⟨[97], [49]⟩]

def single : TreeRemoteDB :=
  match step (fun _ _ _ => []) init (.insert oneSeries) with
  | .ok db => db
  | .error _ => init

theorem insertable_oneSeries : TreeHead.Insertable [] oneSeries where
  wellFormed := by decide
  metricFirst := ⟨[109], [⟨[97], [49]⟩], rfl, by decide⟩
  tail_eq b hb := absurd hb not_mem_nil

theorem reaches_single : Run.Reaches Allowed (step fun _ _ _ => []) init single :=
  .single ⟨.insert oneSeries, insertable_oneSeries, rfl⟩

def byLabel : Query where
  startTimestampMs := 0
  endTimestampMs := 0
  matchers := [⟨.eq, metricName, [109]⟩, ⟨.eq, [97], [49]⟩]

theorem answerable_byLabel (known : List Byte → Prop) :
    byLabel.Answerable (fun _ _ => false) [oneSeries] known where
  asked := by decide
  found m hm _ := by
    obtain rfl : ⟨metricName, [109]⟩ = m := Option.some.inj hm
    decide

def byMetric : Query where
  startTimestampMs := 0
  endTimestampMs := 0
  matchers := [⟨.eq, metricName, [109]⟩]

end TreeRemoteDB

theorem handleQuery_readExact_byLabel :
    single.ReadExact (fun _ _ => false) (fun _ _ _ => []) [byLabel] :=
  (handleQuery_readExact_iff _ _ _ reaches_single _).2
    ⟨fun i q hq => by
      obtain ⟨rfl, rfl⟩ : i = 0 ∧ q = byLabel := by
        cases i with
        | zero => exact ⟨rfl, (Option.some.inj hq).symm⟩
        | succ i => cases hq
      exact answerable_byLabel _, by decide +kernel⟩

/-- A query with a matcher for the metric alone gets no series. -/
theorem handleQuery_readExact_byMetric :
    Run.Reaches TreeRemoteDB.Allowed (step fun _ _ _ => []) .init
        single ∧
      ¬ single.ReadExact (fun _ _ => false) (fun _ _ _ => [])
        [byMetric] := by
  refine ⟨reaches_single, ?_⟩
  rintro ⟨results, head, hok, -, hexact⟩
  have hresults := congrArg (fun r => r.toOption.map Prod.fst) hok
  have heval : (single.head.handleQuery (fun _ _ _ => [])
      [byMetric]).toOption.map Prod.fst = some [[]] := by
    decide +kernel
  obtain rfl : [[]] = results := Option.some.inj (heval.symm.trans hresults)
  exact absurd (hexact 0 _ _ rfl rfl) (by decide +kernel)

end PromTCS
