import PromTCS.Db.HandleQuery

/-!
# The effect of a query on the head

A `TreeQuerierSeriesSet` asks the head for the id of the metric with
`get_or_create_metric_id`, the function that the write path uses. For a metric name that
has no id this takes the next one and puts the name into the shared labels, although
`mid_` is then set to zero and the query finds nothing. Everything else that a query does
only reads the head.

A matcher is given by the label it asks for. `select` runs first; where it does not end,
the head has not been touched.
-/

namespace PromTCS

namespace TreeQuerierSeriesSet

/-- `next()`; `none` at the end. -/
def next (s : TreeQuerierSeriesSet) : Option TreeQuerierSeriesSet :=
  if s.mid = 0 then none
  else
    match s.p with
    | [] => none
    | sgid :: p => some { s with p := p, sgid := sgid }

variable (h : TreeHead) (s : TreeQuerierSeriesSet)

/-- `at()`, with the labels of the series; `none` for a null pointer. -/
def current : Option Labels :=
  if s.mid = 0 ∨ s.sgid = 0 then none
  else (h.forwardIndex (s.sgid, s.mid)).map fun _ => h.reconstructLabels s.sgid s.mid

def iterate : List (Option Labels) :=
  if s.mid = 0 then [] else s.p.map fun sgid => current h { s with sgid := sgid }

theorem iterate_eq :
    iterate h s = match s.next with
      | none => []
      | some s' => current h s' :: iterate h s' := by
  unfold iterate next
  by_cases hmid : s.mid = 0
  · simp [hmid]
  · rw [if_neg hmid, if_neg hmid]
    cases hp : s.p with
    | nil => rfl
    | cons sgid p => simp [hmid, current]

def query (h : TreeHead) (l : Labels) : Except Fault (List (Option Labels) × TreeHead) := do
  let (s, h) ← create h l
  pure (iterate h s, h)

end TreeQuerierSeriesSet

structure SameIdentity (h h' : TreeHead) : Prop where
  sourceThmap : h'.sourceThmap = h.sourceThmap
  metricThmap : h'.metricThmap = h.metricThmap
  lastSourceGroupId : h'.lastSourceGroupId = h.lastSourceGroupId
  lastMetricId : h'.lastMetricId = h.lastMetricId
  sourceLabelsPtr : h'.sourceLabelsPtr = h.sourceLabelsPtr
  metricLabelsPtr : h'.metricLabelsPtr = h.metricLabelsPtr

theorem SameIdentity.refl (h : TreeHead) : SameIdentity h h :=
  ⟨rfl, rfl, rfl, rfl, rfl, rfl⟩

namespace TreeQuerierSeriesSet

def LeavesHead (h : TreeHead) (l : Labels) : Prop :=
  query h l ≠ .error .outOfBounds ∧ ∀ res, query h l = .ok res → SameIdentity h res.2

variable {m : Label}

theorem label_of_metricMatcher {l : Labels} (hm : metricMatcher l = some m) :
    m.label = metricName := by
  simpa using List.find?_some hm

theorem getOrCreateMetricId_of_known {h : TreeHead} (hname : m.label = metricName) {mid : ℕ}
    (hmid : h.metricThmap m.value = some mid) :
    h.getOrCreateMetricId [m] true = .ok ((mid, true), h) := by
  have hmetric := TreeHead.labelMetric_singleton hname
  simp only [TreeHead.getOrCreateMetricId, List.isEmpty_cons, hmetric, hmid]
  rfl

theorem getOrCreateMetricId_of_unknown {h : TreeHead} (hname : m.label = metricName)
    (hmid : h.metricThmap m.value = none) :
    h.getOrCreateMetricId [m] true =
      if maxMetricNum ≤ h.lastMetricId + 1 then .error .outOfBounds
      else .ok ((h.lastMetricId + 1, false), h.newMetric [m]) := by
  have hmetric := TreeHead.labelMetric_singleton hname
  simp only [TreeHead.getOrCreateMetricId, List.isEmpty_cons, hmetric, hmid]
  rfl

/-- A query leaves the head alone exactly if the metric it asks for has an id, or if it
asks for none. -/
theorem query_leavesHead_iff (h : TreeHead) (l : Labels) :
    LeavesHead h l ↔
      ((h.select l).isSome → ∀ m, metricMatcher l = some m → h.metricThmap m.value ≠ none) := by
  unfold LeavesHead query create
  cases hselect : h.select l with
  | none =>
    exact iff_of_true ⟨fun herror => (by cases herror), fun res hok => nomatch hok⟩
      fun hsome => nomatch hsome
  | some p =>
    simp only [Option.isSome_some, true_implies]
    cases hm : metricMatcher l with
    | none =>
      refine iff_of_true ⟨fun herror => (by cases herror), fun res hok => ?_⟩
        fun m hm => nomatch hm
      cases hok
      exact SameIdentity.refl h
    | some m =>
      have hname := label_of_metricMatcher hm
      simp only [Option.some.injEq, forall_eq']
      cases hmid : h.metricThmap m.value with
      | some mid =>
        simp only [getOrCreateMetricId_of_known hname hmid]
        refine iff_of_true ⟨fun herror => (by cases herror), fun res hok => ?_⟩
          (Option.some_ne_none mid)
        cases hok
        exact SameIdentity.refl h
      | none =>
        refine iff_of_false (fun hleaves => ?_) fun hnone => hnone rfl
        simp only [getOrCreateMetricId_of_unknown hname hmid] at hleaves
        split at hleaves
        next => exact hleaves.1 rfl
        next =>
          have hsame := hleaves.2 _ rfl
          exact absurd hsame.lastMetricId (Nat.succ_ne_self _)

/-- The matchers of `up{}` in an empty head. -/
def unknownMetric : Labels := [⟨metricName, [117, 112]⟩]

/-- The query finds nothing and takes the first metric id. -/
theorem query_takesMetricId :
    ¬LeavesHead .init unknownMetric ∧
      (query .init unknownMetric).toOption.map (fun res =>
        (res.1, res.2.lastMetricId, res.2.metricThmap [117, 112], res.2.metricLabelsPtr 1)) =
        some ([], 1, some 1, some ⟨metricName, [117, 112]⟩) := by
  have hquery : (query .init unknownMetric).toOption.map (fun res =>
      (res.1, res.2.lastMetricId, res.2.metricThmap [117, 112], res.2.metricLabelsPtr 1)) =
        some ([], 1, some 1, some ⟨metricName, [117, 112]⟩) := by
    decide +kernel
  refine ⟨fun hleaves => ?_, hquery⟩
  obtain ⟨res, hres, hstate⟩ := Option.map_eq_some_iff.mp hquery
  have hsame := hleaves.2 res (Run.eq_ok_of_toOption hres)
  have hlast : res.2.lastMetricId = 1 := (Prod.mk.inj (Prod.mk.inj hstate).2).1
  rw [hsame.lastMetricId] at hlast
  cases hlast

end TreeQuerierSeriesSet

end PromTCS
