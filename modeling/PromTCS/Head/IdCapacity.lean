import PromTCS.Head.SeriesIdentity

/-!
# The ids the head gives out

The ids index tables of fixed size: `metric_labels_ptr_`, and `source_labels_ptr_` and
`source_array_`, which have the same size. The counters they are taken from know nothing of
the tables, so the ids stay inside as long as there are fewer names than entries. Metric ids
are also given out to queries, for names no series has.
-/

namespace PromTCS

open List Interner

/-- The calls that give out ids. The matchers of a `TreeQuerierSeriesSet` are given by the
labels they ask for. -/
inductive IdOp
  | getOrCreateByThmap (lset : Labels)
  | treeQuerierSeriesSet (l : Labels)

/-- An id that was given out, with the labels it was given out for. -/
inductive HandedOut
  | source (lset : Labels) (sgid : BitVec 64)
  | metric (lset : Labels) (mid : BitVec 16)
deriving DecidableEq

namespace HandedOut

def InRange : HandedOut → Prop
  | .source _ sgid => sgid.toNat < maxSourceNum
  | .metric _ mid => mid.toNat < maxMetricNum

def Apart : HandedOut → HandedOut → Prop
  | .source a sgid, .source b sgid' => sgid = sgid' → sourceLabels a = sourceLabels b
  | .metric a mid, .metric b mid' => mid = mid' → labelMetric a = labelMetric b
  | _, _ => True

end HandedOut

namespace IdOp

def sources : IdOp → List Labels
  | .getOrCreateByThmap lset => [lset]
  | .treeQuerierSeriesSet _ => []

def metrics : IdOp → List Labels
  | .getOrCreateByThmap lset => [lset]
  | .treeQuerierSeriesSet l => (metricMatcher l).toList.map fun m => [m]

end IdOp

def sourceTexts (lsets : List Labels) : Finset (List Byte) :=
  ((lsets.filter fun lset => lset ≠ []).map labelSourceGroup).toFinset

def metricNames (lsets : List Labels) : Finset (List Byte) :=
  ((lsets.filter fun lset => lset ≠ []).map labelMetric).toFinset

theorem sourceTexts_cons_union (op : IdOp) (ops : List IdOp) (groups : Finset (List Byte)) :
    sourceTexts ((op :: ops).flatMap IdOp.sources) ∪ groups =
      sourceTexts (ops.flatMap IdOp.sources) ∪ (sourceTexts op.sources ∪ groups) := by
  rw [flatMap_cons, sourceTexts, filter_append, map_append, toFinset_append,
    Finset.union_assoc, Finset.union_left_comm]
  rfl

theorem metricNames_cons_union (op : IdOp) (ops : List IdOp) (metrics : Finset (List Byte)) :
    metricNames ((op :: ops).flatMap IdOp.metrics) ∪ metrics =
      metricNames (ops.flatMap IdOp.metrics) ∪ (metricNames op.metrics ∪ metrics) := by
  rw [flatMap_cons, metricNames, filter_append, map_append, toFinset_append,
    Finset.union_assoc, Finset.union_left_comm]
  rfl

theorem sourceTexts_singleton {lset : Labels} (hne : lset ≠ []) :
    sourceTexts [lset] = {labelSourceGroup lset} := by
  simp [sourceTexts, hne]

theorem metricNames_singleton {lset : Labels} (hne : lset ≠ []) :
    metricNames [lset] = {labelMetric lset} := by
  simp [metricNames, hne]

namespace TreeHead

variable (h : TreeHead)

/-- The id `get_or_create_source_id` takes from the table or the counter. If it is no index
of `source_labels_ptr_` the call does not return. -/
def sourceIdOut (lset : Labels) : BitVec 64 :=
  match h.getOrCreateSourceId lset true with
  | .ok res => BitVec.ofNat 64 res.1.1
  | .error _ => BitVec.ofNat 64 (h.lastSourceGroupId + 1)

/-- The same for `get_or_create_metric_id` and `metric_labels_ptr_`. -/
def metricIdOut (lset : Labels) : BitVec 16 :=
  match h.getOrCreateMetricId lset true with
  | .ok res => BitVec.ofNat 16 res.1.1
  | .error _ => BitVec.ofNat 16 (h.lastMetricId + 1)

def idStep : IdOp → Except Fault TreeHead
  | .getOrCreateByThmap lset => (h.getOrCreateByThmap lset).map Prod.snd
  | .treeQuerierSeriesSet l =>
    match metricMatcher l with
    | none => pure h
    | some m => (h.getOrCreateMetricId [m] true).map Prod.snd

def handedOut : IdOp → List HandedOut
  | .getOrCreateByThmap lset =>
    .source lset (h.sourceIdOut lset) ::
      match h.getOrCreateSourceId lset true with
      | .ok res => [.metric lset (res.2.metricIdOut lset)]
      | .error _ => []
  | .treeQuerierSeriesSet l =>
    (metricMatcher l).toList.map fun m => .metric [m] (h.metricIdOut [m])

def handedOutAll (h : TreeHead) : List IdOp → List HandedOut
  | [] => []
  | op :: ops =>
    h.handedOut op ++
      match h.idStep op with
      | .ok h' => h'.handedOutAll ops
      | .error _ => []

def Records : HandedOut → Prop
  | .source lset sgid =>
    (lset = [] ∧ sgid = 0) ∨
      (lset ≠ [] ∧ h.sourceThmap (labelSourceGroup lset) = some sgid.toNat)
  | .metric lset mid =>
    (lset = [] ∧ mid = 0) ∨ (lset ≠ [] ∧ h.metricThmap (labelMetric lset) = some mid.toNat)

structure Keeps (h h' : TreeHead) : Prop where
  source : ∀ {text sgid}, h.sourceThmap text = some sgid → h'.sourceThmap text = some sgid
  metric : ∀ {name mid}, h.metricThmap name = some mid → h'.metricThmap name = some mid

theorem Keeps.refl : h.Keeps h := ⟨id, id⟩

theorem Keeps.trans {h₁ h₂ h₃ : TreeHead} (h₁₂ : h₁.Keeps h₂) (h₂₃ : h₂.Keeps h₃) :
    h₁.Keeps h₃ :=
  ⟨fun hs => h₂₃.source (h₁₂.source hs), fun hm => h₂₃.metric (h₁₂.metric hm)⟩

variable {h : TreeHead} {lset : Labels} {sgid : BitVec 64} {ops : List IdOp}
  {groups metrics : Finset (List Byte)}

theorem Keeps.of_intern {h' : TreeHead}
    (hsources : h'.sources = h.sources ∨ ∃ text, h'.sources = h.sources.intern text)
    (hmetrics : h'.metrics = h.metrics ∨ ∃ name, h'.metrics = h.metrics.intern name) :
    h.Keeps h' := by
  refine ⟨fun {text' sgid} hs => ?_, fun {name' mid} hm => ?_⟩
  · change h'.sources.table text' = some sgid
    rcases hsources with heq | ⟨text, heq⟩
    · rwa [heq]
    · rw [heq]
      exact table_intern_of_some hs
  · change h'.metrics.table name' = some mid
    rcases hmetrics with heq | ⟨name, heq⟩
    · rwa [heq]
    · rw [heq]
      exact table_intern_of_some hm

theorem Records.keeps {h' : TreeHead} (hkeep : h.Keeps h') {out : HandedOut} (hrec : h.Records out) :
    h'.Records out := by
  cases out with
  | source lset sgid => exact hrec.imp_right fun ⟨hne, hs⟩ => ⟨hne, hkeep.source hs⟩
  | metric lset mid => exact hrec.imp_right fun ⟨hne, hm⟩ => ⟨hne, hkeep.metric hm⟩

theorem getOrCreateSourceId_eq_error {isExist : Bool} {e : Fault}
    (herr : h.getOrCreateSourceId lset isExist = .error e) :
    lset ≠ [] ∧ h.sources.table (labelSourceGroup lset) = none ∧
      maxSourceNum ≤ h.sources.count + 1 := by
  by_cases hnil : lset = []
  · subst hnil
    cases herr
  · rw [getOrCreateSourceId, if_neg (by simpa using hnil)] at herr
    cases hs : h.sourceThmap (labelSourceGroup lset) with
    | some sgid => simp [hs, pure, Except.pure] at herr
    | none =>
      simp only [hs] at herr
      split_ifs at herr with hroom
      · exact ⟨hnil, hs, hroom⟩
      · cases herr

theorem getOrCreateMetricId_eq_error {isExist : Bool} {e : Fault}
    (herr : h.getOrCreateMetricId lset isExist = .error e) :
    lset ≠ [] ∧ h.metrics.table (labelMetric lset) = none ∧
      maxMetricNum ≤ h.metrics.count + 1 := by
  by_cases hnil : lset = []
  · subst hnil
    cases herr
  · rw [getOrCreateMetricId, if_neg (by simpa using hnil)] at herr
    cases hm : h.metricThmap (labelMetric lset) with
    | some mid => simp [hm, pure, Except.pure] at herr
    | none =>
      simp only [hm] at herr
      split_ifs at herr with hroom
      · exact ⟨hnil, hm, hroom⟩
      · cases herr

theorem toNat_sourceIdOut {keys : Finset (List Byte)} (hv : h.sources.Valid keys)
    (hlt : h.sources.count < maxSourceNum) (hne : lset ≠ []) :
    (h.sourceIdOut lset).toNat = h.sources.idOf (labelSourceGroup lset) := by
  have hout : h.sourceIdOut lset = BitVec.ofNat 64 (h.sources.idOf (labelSourceGroup lset)) := by
    unfold sourceIdOut
    cases hcall : h.getOrCreateSourceId lset true with
    | ok res => rw [← (getOrCreateSourceId_eq_ok hne hcall).1]
    | error e =>
      rw [idOf_of_none (getOrCreateSourceId_eq_error hcall).2.1]
      rfl
  rw [hout, BitVec.toNat_ofNat, Nat.mod_eq_of_lt]
  exact ((hv.idOf_le _).trans hlt).trans_lt (by decide)

theorem toNat_metricIdOut {keys : Finset (List Byte)} (hv : h.metrics.Valid keys)
    (hlt : h.metrics.count < maxMetricNum) (hne : lset ≠ []) :
    (h.metricIdOut lset).toNat = h.metrics.idOf (labelMetric lset) := by
  have hout : h.metricIdOut lset = BitVec.ofNat 16 (h.metrics.idOf (labelMetric lset)) := by
    unfold metricIdOut
    cases hcall : h.getOrCreateMetricId lset true with
    | ok res => rw [← (getOrCreateMetricId_eq_ok hne hcall).1]
    | error e =>
      rw [idOf_of_none (getOrCreateMetricId_eq_error hcall).2.1]
      rfl
  rw [hout, BitVec.toNat_ofNat, Nat.mod_eq_of_lt]
  exact ((hv.idOf_le _).trans hlt).trans_lt (by decide)

/-! ## One call -/

section Step

variable {h : TreeHead} {groups metrics : Finset (List Byte)} (hr : h.Registered groups metrics)

include hr

variable {h' : TreeHead} {lset : Labels} {isExist : Bool} {e : Fault}

theorem Registered.getOrCreateByThmap_nil (hok : h.idStep (.getOrCreateByThmap []) = .ok h') :
    h'.Registered groups metrics ∧ h'.sources = h.sources ∧ h'.metrics = h.metrics := by
  obtain ⟨-, hforwards, hsources, hmetrics⟩ := h.findSeries_eq (0, 0)
  obtain rfl : (h.findSeries (0, 0)).2 = h' := Except.ok.inj hok
  obtain ⟨keys, hkeys⟩ := hr.forwards
  exact ⟨⟨hsources ▸ hr.sources, hmetrics ▸ hr.metrics, ⟨_, hforwards ▸ hkeys.intern _⟩,
    (congrArg count hsources).trans_lt hr.sources_lt,
    (congrArg count hmetrics).trans_lt hr.metrics_lt⟩, hsources, hmetrics⟩

theorem Registered.getOrCreateMetricId (hne : lset ≠ []) {res : (ℕ × Bool) × TreeHead}
    (hok : h.getOrCreateMetricId lset isExist = .ok res) :
    res.2.Registered groups (insert (labelMetric lset) metrics) := by
  obtain ⟨-, hsources, hmetrics, hforwards, hlt⟩ := getOrCreateMetricId_eq_ok hne hok
  exact ⟨hsources ▸ hr.sources, hmetrics ▸ hr.metrics.intern _, hforwards ▸ hr.forwards,
    (congrArg count hsources).trans_lt hr.sources_lt, hlt hr.metrics_lt⟩

theorem records_source (hne : lset ≠ [])
    (hsources : h'.sources = h.sources.intern (labelSourceGroup lset)) :
    h'.Records (.source lset (h.sourceIdOut lset)) := by
  refine Or.inr ⟨hne, ?_⟩
  rw [toNat_sourceIdOut hr.sources hr.sources_lt hne]
  exact (congrFun (congrArg table hsources) _).trans (table_intern_self _ _)

theorem records_metric {h₁ : TreeHead} (hsame : h₁.metrics = h.metrics) (hne : lset ≠ [])
    (hmetrics : h'.metrics = h.metrics.intern (labelMetric lset)) :
    h'.Records (.metric lset (h₁.metricIdOut lset)) := by
  refine Or.inr ⟨hne, ?_⟩
  rw [toNat_metricIdOut (hsame ▸ hr.metrics)
    ((congrArg count hsame).trans_lt hr.metrics_lt) hne, hsame]
  exact (congrFun (congrArg table hmetrics) _).trans (table_intern_self _ _)

theorem Registered.idStep {op : IdOp} (hok : h.idStep op = .ok h') :
    h'.Registered (sourceTexts op.sources ∪ groups) (metricNames op.metrics ∪ metrics) ∧
      h.Keeps h' ∧ ∀ out ∈ h.handedOut op, h'.Records out := by
  cases op with
  | getOrCreateByThmap lset =>
    by_cases hnil : lset = []
    · subst hnil
      obtain ⟨hr', hsources, hmetrics⟩ := hr.getOrCreateByThmap_nil hok
      refine ⟨?_, .of_intern (Or.inl hsources) (Or.inl hmetrics),
        fun out hout => ?_⟩
      · simpa [IdOp.sources, IdOp.metrics, sourceTexts, metricNames] using hr'
      have hmem : out ∈ [HandedOut.source [] 0, HandedOut.metric [] 0] := hout
      simp only [mem_cons, not_mem_nil, or_false] at hmem
      rcases hmem with rfl | rfl
      · exact Or.inl ⟨rfl, rfl⟩
      · exact Or.inl ⟨rfl, rfl⟩
    · obtain ⟨res, hcall, rfl⟩ : ∃ res, h.getOrCreateByThmap lset = .ok res ∧ res.2 = h' := by
        cases hcall : h.getOrCreateByThmap lset with
        | error e => simp [TreeHead.idStep, hcall, Except.map] at hok
        | ok res =>
          simp only [TreeHead.idStep, hcall, Except.map, Except.ok.injEq] at hok
          exact ⟨res, rfl, hok⟩
      obtain ⟨-, hsources, hmetrics, -⟩ := getOrCreateByThmap_eq_ok hnil hcall
      refine ⟨?_, .of_intern (Or.inr ⟨_, hsources⟩) (Or.inr ⟨_, hmetrics⟩), fun out hout => ?_⟩
      · rw [IdOp.sources, IdOp.metrics, sourceTexts_singleton hnil,
          metricNames_singleton hnil, Finset.singleton_union, Finset.singleton_union]
        exact hr.getOrCreateByThmap hnil hcall
      · obtain ⟨res₁, hsource, -⟩ := Run.bind_eq_ok hcall
        obtain ⟨-, -, hmetrics₁, -⟩ := getOrCreateSourceId_eq_ok hnil hsource
        rw [handedOut, hsource, mem_cons, mem_singleton] at hout
        rcases hout with rfl | rfl
        · exact records_source hr hnil hsources
        · exact records_metric hr hmetrics₁ hnil hmetrics
  | treeQuerierSeriesSet l =>
    cases hm : metricMatcher l with
    | none =>
      simp only [TreeHead.idStep, hm, pure, Except.pure, Except.ok.injEq] at hok
      subst hok
      refine ⟨?_, .refl h, fun out hout => ?_⟩
      · simpa [IdOp.sources, IdOp.metrics, hm, sourceTexts, metricNames] using hr
      · simp [handedOut, hm] at hout
    | some m =>
      obtain ⟨res, hcall, rfl⟩ :
          ∃ res, h.getOrCreateMetricId [m] true = .ok res ∧ res.2 = h' := by
        cases hcall : h.getOrCreateMetricId [m] true with
        | error e => simp [TreeHead.idStep, hm, hcall, Except.map] at hok
        | ok res =>
          simp only [TreeHead.idStep, hm, hcall, Except.map, Except.ok.injEq] at hok
          exact ⟨res, rfl, hok⟩
      have hne : [m] ≠ [] := cons_ne_nil m []
      obtain ⟨-, hsources, hmetrics, -⟩ := getOrCreateMetricId_eq_ok hne hcall
      refine ⟨?_, .of_intern (Or.inl hsources) (Or.inr ⟨_, hmetrics⟩),
        fun out hout => ?_⟩
      · simp only [IdOp.sources, IdOp.metrics, hm, Option.toList_some, map_cons,
          map_nil, metricNames_singleton hne, Finset.singleton_union]
        simpa [sourceTexts] using hr.getOrCreateMetricId hne hcall
      · simp only [handedOut, hm, Option.toList_some, map_cons, map_nil,
          mem_singleton] at hout
        subst hout
        exact records_metric hr rfl hne hmetrics

theorem Registered.source_full (herr : h.getOrCreateSourceId lset isExist = .error e) :
    maxSourceNum ≤ (sourceTexts [lset] ∪ groups).card ∧
      ¬ (HandedOut.source lset (h.sourceIdOut lset)).InRange := by
  obtain ⟨hne, hnone, hfull⟩ := getOrCreateSourceId_eq_error herr
  constructor
  · rwa [sourceTexts_singleton hne, Finset.singleton_union, hr.sources.card_insert_of_none hnone]
  · rw [HandedOut.InRange, toNat_sourceIdOut hr.sources hr.sources_lt hne,
      idOf_of_none hnone]
    exact Nat.not_lt.2 hfull

theorem metric_full {h₁ : TreeHead} (hsame : h₁.metrics = h.metrics)
    (herr : h₁.getOrCreateMetricId lset isExist = .error e) :
    maxMetricNum ≤ (metricNames [lset] ∪ metrics).card ∧
      ¬ (HandedOut.metric lset (h₁.metricIdOut lset)).InRange := by
  obtain ⟨hne, hnone, hfull⟩ := getOrCreateMetricId_eq_error herr
  have hv : h₁.metrics.Valid metrics := hsame ▸ hr.metrics
  have hlt : h₁.metrics.count < maxMetricNum :=
    (congrArg count hsame).trans_lt hr.metrics_lt
  constructor
  · rwa [metricNames_singleton hne, Finset.singleton_union, hv.card_insert_of_none hnone]
  · rw [HandedOut.InRange, toNat_metricIdOut hv hlt hne, idOf_of_none hnone]
    exact Nat.not_lt.2 hfull

theorem Registered.idStep_error {op : IdOp} (herr : h.idStep op = .error e) :
    (maxSourceNum ≤ (sourceTexts op.sources ∪ groups).card ∨
      maxMetricNum ≤ (metricNames op.metrics ∪ metrics).card) ∧
      ∃ out ∈ h.handedOut op, ¬ out.InRange := by
  cases op with
  | getOrCreateByThmap lset =>
    cases hsource : h.getOrCreateSourceId lset true with
    | error e' =>
      obtain ⟨hcard, hout⟩ := hr.source_full hsource
      exact ⟨Or.inl hcard, _, mem_cons_self, hout⟩
    | ok res =>
      have hne : lset ≠ [] := by
        rintro rfl
        cases herr
      obtain ⟨-, -, hmetrics, -⟩ := getOrCreateSourceId_eq_ok hne hsource
      cases hmetric : res.2.getOrCreateMetricId lset res.1.2 with
      | ok res' => simp [TreeHead.idStep, TreeHead.getOrCreateByThmap, hsource, hmetric,
          Except.map, bind, Except.bind, pure, Except.pure] at herr
      | error e' =>
        obtain ⟨hcard, hout⟩ := metric_full hr hmetrics hmetric
        refine ⟨Or.inr hcard, _, ?_, hout⟩
        rw [handedOut, hsource]
        exact mem_cons_of_mem _ mem_cons_self
  | treeQuerierSeriesSet l =>
    cases hm : metricMatcher l with
    | none => simp [TreeHead.idStep, hm, pure, Except.pure] at herr
    | some m =>
      cases hmetric : h.getOrCreateMetricId [m] true with
      | ok res => simp [TreeHead.idStep, hm, hmetric, Except.map] at herr
      | error e' =>
        obtain ⟨hcard, hout⟩ := metric_full hr rfl hmetric
        refine ⟨Or.inr ?_, .metric [m] (h.metricIdOut [m]), ?_, hout⟩
        · simpa only [IdOp.metrics, hm, Option.toList_some, map_cons, map_nil]
            using hcard
        · simp [handedOut, hm]

end Step

theorem exists_source_mem_handedOut (h : TreeHead) {op : IdOp} (hmem : lset ∈ op.sources) :
    ∃ sgid, .source lset sgid ∈ h.handedOut op := by
  cases op with
  | getOrCreateByThmap lset' =>
    obtain rfl := mem_singleton.1 hmem
    exact ⟨_, mem_cons_self⟩
  | treeQuerierSeriesSet l => cases hmem

theorem mem_sources_of_mem_handedOut {op : IdOp} (hmem : .source lset sgid ∈ h.handedOut op) :
    lset ∈ op.sources := by
  cases op with
  | getOrCreateByThmap lset' =>
    rcases mem_cons.1 hmem with heq | hmem
    · cases heq
      exact mem_singleton_self lset
    · split at hmem <;> simp at hmem
  | treeQuerierSeriesSet l => simp [handedOut] at hmem

/-! ## Sequences of calls -/

theorem mem_sources_of_mem_handedOutAll (hmem : .source lset sgid ∈ h.handedOutAll ops) :
    lset ∈ ops.flatMap IdOp.sources := by
  induction ops generalizing h with
  | nil => cases hmem
  | cons op ops ih =>
    rw [flatMap_cons, mem_append]
    rcases mem_append.1 hmem with hmem | hmem
    · exact Or.inl (mem_sources_of_mem_handedOut hmem)
    · split at hmem
      · exact Or.inr (ih hmem)
      · cases hmem

section

variable (hr : h.Registered groups metrics)
include hr

theorem Registered.handedOutAll_of_room
    (hs : (sourceTexts (ops.flatMap IdOp.sources) ∪ groups).card < maxSourceNum)
    (hm : (metricNames (ops.flatMap IdOp.metrics) ∪ metrics).card < maxMetricNum) :
    ∃ h', (∃ groups' metrics', h'.Registered groups' metrics') ∧ h.Keeps h' ∧
      (∀ out ∈ h.handedOutAll ops, h'.Records out) ∧
      ∀ lset ∈ ops.flatMap IdOp.sources, ∃ sgid, .source lset sgid ∈ h.handedOutAll ops := by
  induction ops generalizing h groups metrics with
  | nil => exact ⟨h, ⟨_, _, hr⟩, .refl h, by simp [handedOutAll], by simp⟩
  | cons op ops ih =>
    rw [sourceTexts_cons_union] at hs
    rw [metricNames_cons_union] at hm
    cases hop : h.idStep op with
    | error e =>
      exfalso
      rcases (hr.idStep_error hop).1 with hfull | hfull
      · have hsub : sourceTexts op.sources ∪ groups ⊆
            sourceTexts (ops.flatMap IdOp.sources) ∪ (sourceTexts op.sources ∪ groups) :=
          Finset.subset_union_right
        exact absurd hs (Nat.not_lt.2 (hfull.trans (Finset.card_le_card hsub)))
      · have hsub : metricNames op.metrics ∪ metrics ⊆
            metricNames (ops.flatMap IdOp.metrics) ∪ (metricNames op.metrics ∪ metrics) :=
          Finset.subset_union_right
        exact absurd hm (Nat.not_lt.2 (hfull.trans (Finset.card_le_card hsub)))
    | ok h₁ =>
      obtain ⟨hr₁, hkeep₁, hrec₁⟩ := hr.idStep hop
      obtain ⟨h', hr', hkeep, hrec, hasked⟩ := ih hr₁ hs hm
      have hall : h.handedOutAll (op :: ops) = h.handedOut op ++ h₁.handedOutAll ops := by
        rw [handedOutAll, hop]
      rw [hall]
      refine ⟨h', hr', hkeep₁.trans hkeep, fun out hout => ?_, fun lset hlset => ?_⟩
      · rcases mem_append.1 hout with hout | hout
        · exact (hrec₁ out hout).keeps hkeep
        · exact hrec out hout
      · rcases mem_append.1 (flatMap_cons ▸ hlset) with hlset | hlset
        · obtain ⟨sgid, hmem⟩ := h.exists_source_mem_handedOut hlset
          exact ⟨sgid, mem_append_left _ hmem⟩
        · obtain ⟨sgid, hmem⟩ := hasked lset hlset
          exact ⟨sgid, mem_append_right _ hmem⟩

theorem Registered.handedOutAll_of_full (hfull : maxSourceNum ≤
      (sourceTexts (ops.flatMap IdOp.sources) ∪ groups).card ∨ maxMetricNum ≤ (metricNames
      (ops.flatMap IdOp.metrics) ∪ metrics).card) : ∃ out ∈ h.handedOutAll ops, ¬ out.InRange := by
  induction ops generalizing h groups metrics with
  | nil =>
    have hs : groups.card < maxSourceNum := hr.sources.count_eq ▸ hr.sources_lt
    have hm : metrics.card < maxMetricNum := hr.metrics.count_eq ▸ hr.metrics_lt
    simp only [flatMap_nil, sourceTexts, metricNames, filter_nil, map_nil,
      toFinset_nil, Finset.empty_union] at hfull
    omega
  | cons op ops ih =>
    rw [sourceTexts_cons_union, metricNames_cons_union] at hfull
    cases hop : h.idStep op with
    | error e =>
      obtain ⟨out, hout, hrange⟩ := (hr.idStep_error hop).2
      exact ⟨out, mem_append_left _ hout, hrange⟩
    | ok h₁ =>
      obtain ⟨out, hout, hrange⟩ := ih (hr.idStep hop).1 hfull
      refine ⟨out, ?_, hrange⟩
      rw [handedOutAll, hop]
      exact mem_append_right _ hout

theorem Registered.inRange_of_records {out : HandedOut}
    (hrec : h.Records out) : out.InRange := by
  cases out with
  | source lset sgid =>
    rcases hrec with ⟨-, rfl⟩ | ⟨-, hs⟩
    · exact Nat.two_pow_pos 20
    · exact (hr.sources.le hs).trans_lt hr.sources_lt
  | metric lset mid =>
    rcases hrec with ⟨-, rfl⟩ | ⟨-, hm⟩
    · exact Nat.two_pow_pos 9
    · exact (hr.metrics.le hm).trans_lt hr.metrics_lt

theorem Registered.eq_of_records {a b : Labels}
    (ha : h.Records (.source a sgid)) (hb : h.Records (.source b sgid)) :
    (a = [] ∧ b = []) ∨ (a ≠ [] ∧ b ≠ [] ∧ labelSourceGroup a = labelSourceGroup b) := by
  rcases ha with ⟨ha, rfl⟩ | ⟨ha, hsa⟩
  · rcases hb with ⟨hb, -⟩ | ⟨-, hsb⟩
    · exact Or.inl ⟨ha, hb⟩
    · exact absurd (hr.sources.pos hsb) (by simp)
  · rcases hb with ⟨-, rfl⟩ | ⟨hb, hsb⟩
    · exact absurd (hr.sources.pos hsa) (by simp)
    · exact Or.inr ⟨ha, hb, hr.sources.injective hsa hsb⟩

theorem Registered.labelMetric_eq_of_records {a b : Labels}
    {mid : BitVec 16} (ha : h.Records (.metric a mid)) (hb : h.Records (.metric b mid)) :
    labelMetric a = labelMetric b := by
  rcases ha with ⟨rfl, rfl⟩ | ⟨-, hma⟩
  · rcases hb with ⟨rfl, -⟩ | ⟨-, hmb⟩
    · rfl
    · exact absurd (hr.metrics.pos hmb) (by simp)
  · rcases hb with ⟨-, rfl⟩ | ⟨-, hmb⟩
    · exact absurd (hr.metrics.pos hma) (by simp)
    · exact hr.metrics.injective hma hmb

end

end TreeHead

def IdCapacity (ops : List IdOp) : Prop :=
  (∀ out ∈ TreeHead.init.handedOutAll ops, out.InRange) ∧
    ∀ out ∈ TreeHead.init.handedOutAll ops, ∀ out' ∈ TreeHead.init.handedOutAll ops,
      out.Apart out'

/-- The capacity of the tables is respected exactly when there are fewer sources and fewer
metrics than entries, and no two sources have the same text. -/
theorem idCapacity_iff (ops : List IdOp) :
    IdCapacity ops ↔
      (sourceTexts (ops.flatMap IdOp.sources)).card < maxSourceNum ∧
      (metricNames (ops.flatMap IdOp.metrics)).card < maxMetricNum ∧
      ∀ a ∈ ops.flatMap IdOp.sources, ∀ b ∈ ops.flatMap IdOp.sources, a ≠ [] → b ≠ [] →
        labelSourceGroup a = labelSourceGroup b → sourceLabels a = sourceLabels b := by
  have hr := TreeHead.registered_init
  constructor
  · rintro ⟨hrange, hapart⟩
    have hroom : (sourceTexts (ops.flatMap IdOp.sources)).card < maxSourceNum ∧
        (metricNames (ops.flatMap IdOp.metrics)).card < maxMetricNum := by
      by_contra hcard
      rw [not_and_or, Nat.not_lt, Nat.not_lt] at hcard
      obtain ⟨out, hout, hnot⟩ := hr.handedOutAll_of_full
        (by simpa only [Finset.union_empty] using hcard)
      exact hnot (hrange out hout)
    refine ⟨hroom.1, hroom.2, fun a ha b hb hane hbne htext => ?_⟩
    obtain ⟨h', ⟨groups, metrics, hr'⟩, -, hrec, hasked⟩ := hr.handedOutAll_of_room
      (by simpa only [Finset.union_empty] using hroom.1)
      (by simpa only [Finset.union_empty] using hroom.2)
    obtain ⟨sa, hsa⟩ := hasked a ha
    obtain ⟨sb, hsb⟩ := hasked b hb
    have hida := ((hrec _ hsa).resolve_left fun h => hane h.1).2
    have hidb := ((hrec _ hsb).resolve_left fun h => hbne h.1).2
    rw [htext, hidb, Option.some.injEq] at hida
    exact hapart _ hsa _ hsb (BitVec.eq_of_toNat_eq hida.symm)
  · rintro ⟨hs, hm, hsep⟩
    obtain ⟨h', ⟨groups, metrics, hr'⟩, -, hrec, -⟩ := hr.handedOutAll_of_room
      (by rwa [Finset.union_empty]) (by rwa [Finset.union_empty])
    refine ⟨fun out hout => hr'.inRange_of_records (hrec out hout), fun out hout out' hout' => ?_⟩
    cases out with
    | source a sgid =>
      cases out' with
      | source b sgid' =>
        rintro rfl
        rcases hr'.eq_of_records (hrec _ hout) (hrec _ hout') with
          ⟨rfl, rfl⟩ | ⟨ha, hb, htext⟩
        · rfl
        · exact hsep a (TreeHead.mem_sources_of_mem_handedOutAll hout) b
            (TreeHead.mem_sources_of_mem_handedOutAll hout') ha hb htext
      | metric b mid => trivial
    | metric a mid =>
      cases out' with
      | source b sgid => trivial
      | metric b mid' =>
        rintro rfl
        exact hr'.labelMetric_eq_of_records (hrec _ hout) (hrec _ hout')

def nthName (n : ℕ) : List Byte := [BitVec.ofNat 8 (n / 256), BitVec.ofNat 8 n]

/-- As many metrics as `metric_labels_ptr_` has entries. -/
def fullMetrics : List IdOp :=
  (List.range maxMetricNum).map fun n => .getOrCreateByThmap [⟨metricName, nthName n⟩]

theorem nthName_injOn : Set.InjOn nthName (Finset.range maxMetricNum) := by
  intro a ha b hb hab
  rw [Finset.coe_range, Set.mem_Iio, maxMetricNum] at ha hb
  simp only [nthName, List.cons.injEq, and_true] at hab
  have hhigh := congrArg BitVec.toNat hab.1
  have hlow := congrArg BitVec.toNat hab.2
  simp only [BitVec.toNat_ofNat] at hhigh hlow
  omega

theorem le_card_fullMetrics :
    maxMetricNum ≤ (metricNames (fullMetrics.flatMap IdOp.metrics)).card := by
  have hsub : (Finset.range maxMetricNum).image nthName ⊆
      metricNames (fullMetrics.flatMap IdOp.metrics) := by
    intro name hname
    obtain ⟨n, hn, rfl⟩ := Finset.mem_image.1 hname
    have hop : [⟨metricName, nthName n⟩] ∈ fullMetrics.flatMap IdOp.metrics :=
      mem_flatMap.2 ⟨.getOrCreateByThmap [⟨metricName, nthName n⟩],
        mem_map.2 ⟨n, mem_range.2 (Finset.mem_range.1 hn), rfl⟩,
        mem_singleton_self _⟩
    refine mem_toFinset.2 (mem_map.2 ⟨_, mem_filter.2 ⟨hop, rfl⟩, rfl⟩)
  calc maxMetricNum = ((Finset.range maxMetricNum).image nthName).card := by
        rw [Finset.card_image_of_injOn nthName_injOn, Finset.card_range]
    _ ≤ _ := Finset.card_le_card hsub

/-- The last of the metrics gets the id 512, one past the end. -/
theorem idCapacity_fullMetrics : ¬ IdCapacity fullMetrics := by
  rintro ⟨hrange, -⟩
  obtain ⟨out, hout, hnot⟩ := TreeHead.registered_init.handedOutAll_of_full
    (Or.inr (by rw [Finset.union_empty]; exact le_card_fullMetrics))
  exact hnot (hrange out hout)

end PromTCS
