import PromTCS.Head.Labels
import PromTCS.Index.PostingsCursor
import PromTCS.Index.TreeIntersect

/-!
# Selecting sources

`select` intersects the postings of the labels it is given. In a head that was filled
by `get_or_create_by_thmap` these are the sources that carry all of the labels, and a
series is in the forward index exactly if its label set was given to the head.

The id of a source belongs to the text `label_source_group` makes of its labels, so
this holds as long as no two sources share a text.
-/

namespace PromTCS

open List PrefixPostingsV2 TreeIntersect

namespace TreeHead

/-- The loop of `select` over the matchers other than `__name__`; `none` if one of them
has no postings. The cursor of the list in the index is where `reset_cursor` puts it
all the time, so only the copy is reset. -/
def selectLists (h : TreeHead) (l : Labels) : Option (List PrefixPostingsV2) :=
  (sourceLabels l).mapM fun m => (h.invertedIndex m).map resetCursor

/-- `select(l)`; a matcher is given by the label it asks for. The loop over the
intersection ends before it has made more rounds than there are ids. -/
def select (h : TreeHead) (l : Labels) : Option (List ℕ) :=
  match h.selectLists l with
  | none => some []
  | some [] => some []
  | some (p :: ps) =>
    collect cursorOps
      (((p :: ps).map num).sum + 1) (p :: ps)

def postings (h : TreeHead) (l : Label) : List ℕ :=
  (h.invertedIndex l).elim [] ids

end TreeHead

def MetricFirst (lset : Labels) : Prop :=
  ∃ m src, lset = ⟨metricName, m⟩ :: src ∧ ∀ l ∈ src, l.label ≠ metricName

namespace MetricFirst

variable {lset : Labels} (h : MetricFirst lset)

include h

theorem labelMetric_eq : lset = ⟨metricName, labelMetric lset⟩ :: lset.tail := by
  obtain ⟨m, src, rfl, -⟩ := h
  simp [labelMetric]

theorem sourceLabels_eq : sourceLabels lset = lset.tail := by
  obtain ⟨m, src, rfl, hsrc⟩ := h
  rw [sourceLabels, filter_cons_of_neg (by simp), tail_cons]
  exact filter_eq_self.2 fun l hl => by simpa using hsrc l hl

end MetricFirst

namespace TreeHead

structure Catalogues (h : TreeHead) (stored : List Labels) : Prop where
  registered : ∃ groups metrics, h.Registered groups metrics
  nodup : stored.Nodup
  metricFirst : ∀ a ∈ stored, MetricFirst a
  tail_eq : ∀ a ∈ stored, ∀ b ∈ stored, labelSourceGroup a = labelSourceGroup b → a.tail = b.tail
  finds : ∀ a ∈ stored, ∃ series, h.Finds a series
  source : ∀ {text sgid}, h.sourceThmap text = some sgid →
    ∃ a ∈ stored, labelSourceGroup a = text ∧ h.sourceLabelsPtr sgid = a.tail
  metric : ∀ {m mid}, h.metricThmap m = some mid → h.metricLabelsPtr mid = some ⟨metricName, m⟩
  forward : ∀ {key series}, h.forwardIndex key = some series → ∃ a ∈ stored, h.Finds a series
  postingsOk : ∀ {l p}, h.invertedIndex l = some p → p.Valid ∧ p.cursor = none
  mem_postings : ∀ {l id}, id ∈ h.postings l ↔
    ∃ a ∈ stored, h.sourceThmap (labelSourceGroup a) = some id ∧ l ∈ a.tail

theorem catalogues_init : init.Catalogues [] where
  registered := ⟨∅, ∅, registered_init⟩
  nodup := .nil
  metricFirst a ha := absurd ha not_mem_nil
  tail_eq a ha := absurd ha not_mem_nil
  finds a ha := absurd ha not_mem_nil
  source h := by cases h
  metric h := by cases h
  forward h := by cases h
  postingsOk h := by cases h
  mem_postings := by simp [postings, init]

/-! ## Insertion -/

theorem foldl_update_apply {α β : Type*} [DecidableEq α] (g : β → β) (f : α → β) {ks : List α}
    (hks : ks.Nodup) (x : α) :
    ks.foldl (fun f k => Function.update f k (g (f k))) f x =
      if x ∈ ks then g (f x) else f x := by
  induction ks generalizing f with
  | nil => simp
  | cons k ks ih =>
    rw [nodup_cons] at hks
    rw [foldl_cons, ih _ hks.2]
    by_cases hx : x = k
    · subst hx
      simp [hks.1]
    · simp [hx]

theorem postings_insert {q : Option PrefixPostingsV2}
    (hq : ∀ p, q = some p → p.Valid ∧ p.cursor = none) {id : ℕ}
    (hid : id ∈ q.elim [] ids ∨ ∀ x ∈ q.elim [] ids, x < id) :
    ((q.getD .empty).insert id).Valid ∧ ((q.getD .empty).insert id).cursor = none ∧
      ∀ x, x ∈ ((q.getD .empty).insert id).ids ↔
        x = id ∨ x ∈ q.elim [] ids := by
  rw [cursor_insert]
  cases q with
  | none =>
    have hvalid := valid_empty
    obtain ⟨hins, hmem⟩ := hvalid.insert (hvalid.appendable hid)
    exact ⟨hins, rfl, hmem⟩
  | some p =>
    obtain ⟨hvalid, hcursor⟩ := hq p rfl
    obtain ⟨hins, hmem⟩ := hvalid.insert (hvalid.appendable hid)
    exact ⟨hins, hcursor, hmem⟩

structure Insertable (stored : List Labels) (lset : Labels) : Prop where
  wellFormed : WellFormed lset
  metricFirst : MetricFirst lset
  tail_eq : ∀ b ∈ stored, labelSourceGroup b = labelSourceGroup lset → b.tail = lset.tail

section Insert

variable {h : TreeHead} {stored : List Labels} (hc : h.Catalogues stored) {lset : Labels}
  (hi : Insertable stored lset) {res : (ℕ × Bool) × TreeHead}
  (hok : h.getOrCreateByThmap lset = .ok res)

include hc hi

theorem Catalogues.mem_postings_of_known {sgid : ℕ}
    (hs : h.sourceThmap (labelSourceGroup lset) = some sgid) {l : Label} (hl : l ∈ lset.tail) :
    sgid ∈ h.postings l := by
  obtain ⟨b, hb, hgroup, -⟩ := hc.source hs
  refine hc.mem_postings.2 ⟨b, hb, ?_, ?_⟩
  · rw [hgroup, hs]
  · rwa [hi.tail_eq b hb hgroup]

theorem Catalogues.mem_or_forall_lt {l : Label} (hl : l ∈ lset.tail) :
    h.sources.idOf (labelSourceGroup lset) ∈ h.postings l ∨
      ∀ x ∈ h.postings l, x < h.sources.idOf (labelSourceGroup lset) := by
  obtain ⟨groups, metrics, hr⟩ := hc.registered
  cases hs : h.sourceThmap (labelSourceGroup lset) with
  | some sgid =>
    rw [Interner.idOf_of_some (show h.sources.table _ = some sgid from hs)]
    exact Or.inl (hc.mem_postings_of_known hi hs hl)
  | none =>
    rw [Interner.idOf_of_none (show h.sources.table _ = none from hs)]
    refine Or.inr fun x hx => ?_
    obtain ⟨a, -, ha, -⟩ := hc.mem_postings.1 hx
    exact Nat.lt_succ_of_le (hr.sources.le ha)

include hok

theorem Catalogues.postings_getOrCreateByThmap :
    (∀ {l p}, res.2.invertedIndex l = some p → p.Valid ∧ p.cursor = none) ∧
      ∀ {l x}, x ∈ res.2.postings l ↔
        x ∈ h.postings l ∨ (l ∈ lset.tail ∧ x = h.sources.idOf (labelSourceGroup lset)) := by
  obtain ⟨-, -, hindex⟩ := getOrCreateByThmap_pools hi.wellFormed.ne_nil hok
  split_ifs at hindex with hknown
  · rw [Bool.and_eq_true, Option.isSome_iff_exists] at hknown
    obtain ⟨⟨sgid, hs⟩, -⟩ := hknown
    rw [Interner.idOf_of_some (show h.sources.table _ = some sgid from hs), hindex]
    refine ⟨hc.postingsOk, ?_⟩
    intro l x
    rw [postings, hindex]
    refine ⟨Or.inl, ?_⟩
    rintro (hx | ⟨hl, rfl⟩)
    · exact hx
    · exact hc.mem_postings_of_known hi hs hl
  · have hnodup : (sourceLabels lset).Nodup :=
      (WellFormed.nodup_of_pairwise hi.wellFormed.pairwise).of_map.filter _
    have hl : ∀ l, res.2.invertedIndex l =
        if l ∈ lset.tail then
          some (((h.invertedIndex l).getD .empty).insert (h.sources.idOf (labelSourceGroup lset)))
        else h.invertedIndex l := by
      intro l
      rw [hindex, addPostings, ← hi.metricFirst.sourceLabels_eq]
      exact foldl_update_apply
        (fun q => some ((q.getD PrefixPostingsV2.empty).insert _)) _ hnodup l
    constructor
    · intro l p hp
      rw [hl] at hp
      split_ifs at hp with hmem
      · cases hp
        obtain ⟨hvalid, hcursor, -⟩ := postings_insert (fun p => hc.postingsOk)
          (hc.mem_or_forall_lt hi hmem)
        exact ⟨hvalid, hcursor⟩
      · exact hc.postingsOk hp
    · intro l x
      rw [postings, hl]
      split_ifs with hmem
      · obtain ⟨-, -, hids⟩ := postings_insert (fun p => hc.postingsOk)
          (hc.mem_or_forall_lt hi hmem)
        rw [Option.elim_some, hids, or_comm]
        simp only [hmem, true_and]
        rfl
      · simp only [hmem, false_and, or_false]
        rfl

theorem Catalogues.getOrCreateByThmap : res.2.Catalogues (stored.insert lset) := by
  have hne := hi.wellFormed.ne_nil
  obtain ⟨groups, metrics, hr⟩ := hc.registered
  obtain ⟨hpostingsOk, hpostings⟩ := hc.postings_getOrCreateByThmap hi hok
  obtain ⟨hid, hsources, hmetrics, hforwards, -⟩ := getOrCreateByThmap_eq_ok hne hok
  obtain ⟨hsource, hmetric, -⟩ := getOrCreateByThmap_pools hne hok
  have hfinds := finds_of_getOrCreateByThmap hne hok
  have hsourceSelf : res.2.sourceThmap (labelSourceGroup lset) =
      some (h.sources.idOf (labelSourceGroup lset)) :=
    (congrFun (congrArg Interner.table hsources) _).trans (Interner.table_intern_self _ _)
  have hsourceOld : ∀ {text sgid}, h.sourceThmap text = some sgid →
      res.2.sourceThmap text = some sgid := fun hold =>
    (congrFun (congrArg Interner.table hsources) _).trans (Interner.table_intern_of_some hold)
  refine ⟨⟨_, _, hr.getOrCreateByThmap hne hok⟩, hc.nodup.insert, ?_, ?_, ?_, ?_, ?_, ?_,
    hpostingsOk, ?_⟩
  · intro a ha
    rcases mem_insert_iff.1 ha with rfl | ha
    · exact hi.metricFirst
    · exact hc.metricFirst a ha
  · intro a ha b hb hgroup
    rcases mem_insert_iff.1 ha with rfl | ha'
    · rcases mem_insert_iff.1 hb with rfl | hb'
      · rfl
      · exact (hi.tail_eq b hb' hgroup.symm).symm
    · rcases mem_insert_iff.1 hb with rfl | hb'
      · exact hi.tail_eq a ha' hgroup
      · exact hc.tail_eq a ha' b hb' hgroup
  · intro a ha
    rcases mem_insert_iff.1 ha with rfl | ha
    · exact ⟨_, hfinds⟩
    · obtain ⟨series, hseries⟩ := hc.finds a ha
      exact ⟨series, hseries.getOrCreateByThmap hne hok⟩
  · intro text sgid htext
    rw [hsource]
    have htext' : (h.sources.intern (labelSourceGroup lset)).table text = some sgid := by
      rwa [← hsources]
    rcases Interner.table_intern_cases htext' with hold | ⟨hnew, rfl, rfl⟩
    · obtain ⟨b, hb, hgroup, hptr⟩ := hc.source hold
      refine ⟨b, mem_insert_of_mem hb, hgroup, ?_⟩
      rw [sourcePool_of_le lset (hr.sources.le hold), hptr]
    · exact ⟨lset, mem_insert_self, rfl, sourcePool_new hnew⟩
  · intro m mid hm
    rw [hmetric]
    have hm' : (h.metrics.intern (labelMetric lset)).table m = some mid := by
      rwa [← hmetrics]
    rcases Interner.table_intern_cases hm' with hold | ⟨hnew, rfl, rfl⟩
    · rw [metricPool_of_le lset (hr.metrics.le hold), hc.metric hold]
    · exact (metricPool_new hnew).trans (congrArg List.head? hi.metricFirst.labelMetric_eq)
  · intro key series hseries
    have hseries' : (h.forwards.intern (h.seriesKey lset)).table key = some series := by
      rwa [← hforwards]
    rcases Interner.table_intern_cases hseries' with hold | ⟨hnew, -, rfl⟩
    · obtain ⟨a, ha, hfind⟩ := hc.forward hold
      exact ⟨a, mem_insert_of_mem ha, hfind.getOrCreateByThmap hne hok⟩
    · rw [hid, Interner.idOf_of_none hnew] at hfinds
      exact ⟨lset, mem_insert_self, hfinds⟩
  · intro l x
    rw [hpostings, hc.mem_postings]
    constructor
    · rintro (⟨a, ha, hs, hl⟩ | ⟨hl, rfl⟩)
      · exact ⟨a, mem_insert_of_mem ha, hsourceOld hs, hl⟩
      · exact ⟨lset, mem_insert_self, hsourceSelf, hl⟩
    · rintro ⟨a, ha, hs, hl⟩
      rcases mem_insert_iff.1 ha with rfl | ha
      · exact Or.inr ⟨hl, Option.some.inj (hs.symm.trans hsourceSelf)⟩
      · obtain ⟨series, sgid, -, hsgid, -⟩ := hc.finds a ha
        have hx : sgid = x := Option.some.inj ((hsourceOld hsgid).symm.trans hs)
        exact Or.inl ⟨a, ha, hx ▸ hsgid, hl⟩

end Insert

/-! ## Selection -/

section Select

variable {h : TreeHead}

theorem fresh_of_mapM {ls : Labels}
    (hok : ∀ m ∈ ls, ∀ p, h.invertedIndex m = some p → p.Valid) {ps : List PrefixPostingsV2}
    (hps : (ls.mapM fun m => (h.invertedIndex m).map resetCursor) = some ps) :
    List.Forall₂ PrefixPostingsV2.Fresh ps (ls.map h.postings) := by
  induction ls generalizing ps with
  | nil =>
    cases hps
    exact .nil
  | cons m ls ih =>
    simp only [mapM_cons, bind, Option.bind_eq_some_iff, Option.map_eq_some_iff, pure] at hps
    obtain ⟨-, ⟨p, hp, rfl⟩, ps', hps', hcons⟩ := hps
    cases hcons
    have hvalid := hok m mem_cons_self p hp
    refine .cons ⟨⟨hvalid.length_eq, hvalid.prefixes, hvalid.blocks⟩, rfl, ?_⟩
      (ih (fun m' hm' => hok m' (mem_cons_of_mem m hm')) hps')
    rw [postings, hp]
    rfl

theorem mapM_eq_none {ls : Labels}
    (hps : (ls.mapM fun m => (h.invertedIndex m).map resetCursor) = none) :
    ∃ m ∈ ls, h.postings m = [] := by
  induction ls with
  | nil => cases hps
  | cons m ls ih =>
    simp only [mapM_cons, bind, Option.bind_eq_none_iff, Option.map_eq_some_iff, pure] at hps
    cases hm : h.invertedIndex m with
    | none => exact ⟨m, mem_cons_self, by rw [postings, hm]; rfl⟩
    | some p =>
      cases hls : ls.mapM fun m => (h.invertedIndex m).map resetCursor with
      | none =>
        obtain ⟨m', hm', hpost⟩ := ih hls
        exact ⟨m', mem_cons_of_mem m hm', hpost⟩
      | some ps => exact absurd (hps _ ⟨p, hm, rfl⟩ ps hls) (Option.some_ne_none _)

theorem fresh_lists {ps : List PrefixPostingsV2} {ls : List (List ℕ)}
    (hfresh : List.Forall₂ PrefixPostingsV2.Fresh ps ls) :
    (∀ l ∈ ls, l.Pairwise (· < ·)) ∧
      total ls = (ps.map num).sum := by
  induction hfresh with
  | nil => exact ⟨fun l hl => absurd hl not_mem_nil, rfl⟩
  | @cons p l ps ls hp _ ih =>
    obtain ⟨hasc, htotal⟩ := ih
    constructor
    · rw [forall_mem_cons, ← hp.ids_eq]
      exact ⟨hp.valid.ids_pairwise, hasc⟩
    · rw [total_cons, htotal, ← hp.ids_eq, hp.valid.blocked.length_ids]
      rfl

theorem select_of_valid {l : Labels}
    (hok : ∀ m ∈ sourceLabels l, ∀ p, h.invertedIndex m = some p → p.Valid) :
    ∃ v, h.select l = some v ∧ v.Pairwise (· < ·) ∧
      ∀ id, id ∈ v ↔ sourceLabels l ≠ [] ∧ ∀ m ∈ sourceLabels l, id ∈ h.postings m := by
  rw [TreeHead.select]
  cases hps : h.selectLists l with
  | none =>
    obtain ⟨m, hm, hpost⟩ := mapM_eq_none hps
    refine ⟨[], rfl, .nil, fun id => iff_of_false not_mem_nil ?_⟩
    rintro ⟨-, hall⟩
    exact absurd (hpost ▸ hall m hm) not_mem_nil
  | some ps =>
    have hfresh := fresh_of_mapM hok hps
    cases ps with
    | nil =>
      have hnil : sourceLabels l = [] :=
        map_eq_nil_iff.1 (forall₂_nil_left_iff.1 hfresh)
      exact ⟨[], rfl, .nil, fun id => iff_of_false not_mem_nil fun h => h.1 hnil⟩
    | cons p ps =>
      have hne : (sourceLabels l).map h.postings ≠ [] := fun hnil => by
        rw [hnil] at hfresh
        cases hfresh
      obtain ⟨hlists, htotal⟩ := fresh_lists hfresh
      obtain ⟨v, hv, hasc, hmem⟩ := collect_spec
        lawful_cursorOps hne (hfresh.imp fun _ _ => Or.inl) hlists
        (Nat.lt_succ_of_le (Nat.le_of_eq htotal))
      refine ⟨v, hv, hasc, fun id => ?_⟩
      rw [hmem, TreeIntersect.Common, forall_mem_map]
      simpa using fun _ => hne

/-- The loop over the intersection of at least one list ends and returns the ids in all of
them, in ascending order; `select` returns the ids in the postings of every label other than
the metric. -/
theorem select_intersects :
    (∀ {σ : Type} {c : Cursor σ} {fresh here : σ → List ℕ → Prop}, c.Lawful fresh here →
      ∀ {ps : List σ} {ls : List (List ℕ)}, List.Forall₂ fresh ps ls → ls ≠ [] →
        (∀ l ∈ ls, l.Pairwise (· < ·)) → ∀ fuel, (ls.map List.length).sum < fuel →
          ∃ v, collect c fuel ps = some v ∧ v.Pairwise (· < ·) ∧
            ∀ x, x ∈ v ↔ ∀ l ∈ ls, x ∈ l) ∧
      ∀ (h : TreeHead) (l : Labels),
        (∀ m ∈ sourceLabels l, ∀ p, h.invertedIndex m = some p → p.Valid) →
          ∃ v, h.select l = some v ∧ v.Pairwise (· < ·) ∧
            ∀ id, id ∈ v ↔ sourceLabels l ≠ [] ∧ ∀ m ∈ sourceLabels l, id ∈ h.postings m := by
  refine ⟨fun hc _ _ hfresh hne hasc fuel hfuel => ?_, fun h l => select_of_valid⟩
  exact collect_spec hc hne (hfresh.imp fun _ _ => Or.inl) hasc hfuel

def sampleIndex : TreeHead :=
  { init with invertedIndex := fun m =>
      if m.label = [97#8] then some (ofIds [1, 2, 70000])
      else some (ofIds [2, 3, 70000]) }

/-- Two labels whose postings share two ids, in two blocks. -/
theorem select_intersects_sampleIndex :
    (∃ v, collect cursorOps 7
        [ofIds [1, 2, 70000], ofIds [2, 3, 70000]] = some v ∧
      v.Pairwise (· < ·) ∧ ∀ x, x ∈ v ↔ ∀ l ∈ [[1, 2, 70000], [2, 3, 70000]], x ∈ l) ∧
      ∃ v, sampleIndex.select [⟨[97#8], []⟩, ⟨[98#8], []⟩] = some v ∧ 70000 ∈ v := by
  constructor
  · exact select_intersects.1 lawful_cursorOps
      (List.Forall₂.cons (fresh_ofIds (by decide))
        (List.Forall₂.cons (fresh_ofIds (by decide)) List.Forall₂.nil))
      (by decide) (by decide) 7 (by decide)
  · obtain ⟨v, hv, -, hmem⟩ := select_intersects.2 sampleIndex [⟨[97#8], []⟩, ⟨[98#8], []⟩] (by
      intro m _ p hp
      unfold sampleIndex at hp
      dsimp only at hp
      split_ifs at hp <;> cases hp <;>
        exact (fresh_ofIds (by decide)).valid)
    exact ⟨v, hv, (hmem _).2 (by decide +kernel)⟩

end Select

section Catalogued

variable {h : TreeHead} {stored : List Labels} (hc : h.Catalogues stored)

include hc

theorem Catalogues.select (l : Labels) :
    ∃ v, h.select l = some v ∧ v.Pairwise (· < ·) ∧
      ∀ id, id ∈ v ↔ sourceLabels l ≠ [] ∧ ∀ m ∈ sourceLabels l, id ∈ h.postings m :=
  select_of_valid fun _ _ _ hp => (hc.postingsOk hp).1

variable {id : ℕ}

theorem Catalogues.tail_eq_sourceLabelsPtr {a : Labels} (ha : a ∈ stored)
    (hs : h.sourceThmap (labelSourceGroup a) = some id) : h.sourceLabelsPtr id = a.tail := by
  obtain ⟨b, hb, hgroup, hptr⟩ := hc.source hs
  rw [hptr, hc.tail_eq b hb a ha hgroup]

theorem Catalogues.forall_mem_postings {ms : Labels} (hms : ms ≠ []) :
    (∀ m ∈ ms, id ∈ h.postings m) ↔
      ∃ a ∈ stored, h.sourceThmap (labelSourceGroup a) = some id ∧ ∀ m ∈ ms, m ∈ a.tail := by
  constructor
  · intro hall
    obtain ⟨m₀, hm₀⟩ := exists_mem_of_ne_nil ms hms
    obtain ⟨a, ha, hs, -⟩ := hc.mem_postings.1 (hall m₀ hm₀)
    refine ⟨a, ha, hs, fun m hm => ?_⟩
    obtain ⟨b, hb, hs', hmb⟩ := hc.mem_postings.1 (hall m hm)
    rwa [← hc.tail_eq_sourceLabelsPtr ha hs, hc.tail_eq_sourceLabelsPtr hb hs']
  · rintro ⟨a, ha, hs, hall⟩ m hm
    exact hc.mem_postings.2 ⟨a, ha, hs, hall m hm⟩

theorem Catalogues.forwardIndex_iff {a : Labels} (ha : a ∈ stored) {mid : ℕ} {m : List Byte}
    (hs : h.sourceThmap (labelSourceGroup a) = some id) (hm : h.metricThmap m = some mid) :
    (∃ series, h.forwardIndex (id, mid) = some series) ↔ ⟨metricName, m⟩ :: a.tail ∈ stored := by
  obtain ⟨groups, metrics, hr⟩ := hc.registered
  constructor
  · rintro ⟨series, hseries⟩
    obtain ⟨b, hb, s, m', hs', hm', hp⟩ := hc.forward hseries
    obtain ⟨keys, hkeys⟩ := hr.forwards
    obtain ⟨rfl, rfl⟩ := Prod.mk.inj (hkeys.injective hseries hp)
    have hname := hr.metrics.injective hm hm'
    rw [hname, ← hc.tail_eq_sourceLabelsPtr ha hs, hc.tail_eq_sourceLabelsPtr hb hs',
      ← (hc.metricFirst b hb).labelMetric_eq]
    exact hb
  · intro hb
    obtain ⟨series, s, m', hs', hm', hp⟩ := hc.finds _ hb
    have hfirst := hc.metricFirst _ hb
    have hname : labelMetric (⟨metricName, m⟩ :: a.tail) = m := by simp [labelMetric]
    have hgroup : labelSourceGroup (⟨metricName, m⟩ :: a.tail) = labelSourceGroup a := by
      rw [labelSourceGroup, labelSourceGroup, hfirst.sourceLabels_eq,
        (hc.metricFirst a ha).sourceLabels_eq, tail_cons]
    rw [hname, hm, Option.some.injEq] at hm'
    rw [hgroup, hs, Option.some.injEq] at hs'
    exact ⟨series, by rw [hs', hm']; exact hp⟩

end Catalogued

end TreeHead

end PromTCS
