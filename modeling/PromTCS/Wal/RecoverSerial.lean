import PromTCS.Wal.Cleaning

/-!
# Recovery of the samples

`recover_serial` first recovers the series and then appends the samples of the sample logs
to them. A sample is dropped if its series is not in the forward index. Series and samples
are written by different threads, so that at a crash a sample may be on disk and its series
not.

After a crash each log holds some of its records, from the first on.
-/

namespace PromTCS

open List Function RecoveredHead

/-- The complete records of the logs, each given by the items it was written from. -/
structure LogDisk where
  seriesLog : List (List TreeRefSeries)
  sampleLogs : List (List (List TreeRefSample))

namespace LogDisk

def series (disk : LogDisk) : List TreeRefSeries := disk.seriesLog.flatten

def samples (disk : LogDisk) : List TreeRefSample := disk.sampleLogs.flatten.flatten

end LogDisk

namespace SampleWal

def records (w : SampleWal) : List (List TreeRefSample) :=
  (List.range (w.curLogSeq + 1)).flatMap fun n =>
    ((w.files n).getD []).map (List.map LogEntry.sample)

end SampleWal

structure PWal.Crash (walNum : ℕ) (p : PWal) (disk : LogDisk) : Prop where
  seriesLog : disk.seriesLog <+: p.seriesLog
  sampleLogs_length : disk.sampleLogs.length = walNum
  sampleLogs : ∀ i log, disk.sampleLogs[i]? = some log → log <+: (p.wal i).records

structure RecoveredSamples where
  head : TreeHead
  restored : ℕ × ℕ → List (Word × Word)

variable (h : TreeHead) (restored : ℕ × ℕ → List (Word × Word))

/-- The loop of `recover_commit`. -/
def recoverCommit
    (samples : List TreeRefSample) : ℕ × ℕ → List (Word × Word) :=
  samples.foldl (fun restored s =>
    match h.forwardIndex s.key with
    | none => restored
    | some _ => update restored s.key (restored s.key ++ [(s.t, s.v)])) restored

/-- One record of `recover_samples_from_log`: `add_fast` for each of the samples read, and
`recover_commit`. -/
def recoverRecord
    (batch : List TreeRefSample) : ℕ × ℕ → List (Word × Word) :=
  let rs := LogReader.readBatch batch
  recoverCommit h restored (rs.filter fun s => (h.forwardIndex s.key).isSome)

def recoverSamplesFromLog
    (log : List (List TreeRefSample)) : ℕ × ℕ → List (Word × Word) :=
  log.foldl (recoverRecord h) restored

/-- The series that are read from the record of a batch. -/
def readSeries (batch : List TreeRefSeries) : List TreeRefSeries :=
  match LogReader.treeSeries (batch.length + 1) (LogWriter.treeSeries batch) with
  | .ok (_, l) => l
  | .error _ => []

def recoverSerial (disk : LogDisk) : Except Fault RecoveredSamples := do
  let h ← recoverIndexFromLog (disk.seriesLog.flatMap readSeries)
  pure ⟨h.head, disk.sampleLogs.foldl (recoverSamplesFromLog h.head) fun _ => []⟩

def samplesOf (key : ℕ × ℕ) (samples : List TreeRefSample) : List (Word × Word) :=
  (samples.filter fun s => s.key = key).map fun s => (s.t, s.v)

/-- Every series has its samples of the disk again, in their order. -/
def Restores (disk : LogDisk) : Prop :=
  ∃ r, recoverSerial disk = .ok r ∧ ∀ key, r.restored key = samplesOf key disk.samples

/-! ### What the samples become -/

section Restored

variable {h : TreeHead} {key : ℕ × ℕ}

theorem samplesOf_flatMap {β : Type*} (l : List β) (f : β → List TreeRefSample) :
    samplesOf key (l.flatMap f) = l.flatMap fun b => samplesOf key (f b) := by
  simp only [samplesOf, filter_flatMap, map_flatMap]

/-- What is appended to the series of `key`. -/
def appended (h : TreeHead) (key : ℕ × ℕ) (samples : List TreeRefSample) : List (Word × Word) :=
  if (h.forwardIndex key).isSome then samplesOf key samples else []

theorem foldl_append {β : Type*} {f : (ℕ × ℕ → List (Word × Word)) → β → ℕ × ℕ → List (Word × Word)}
    {g : β → List (Word × Word)} (hf : ∀ restored b, f restored b key = restored key ++ g b)
    (l : List β) (restored : ℕ × ℕ → List (Word × Word)) :
    l.foldl f restored key = restored key ++ l.flatMap g := by
  induction l generalizing restored with
  | nil => simp
  | cons b l ih => rw [foldl_cons, ih, hf, append_assoc, flatMap_cons]

theorem recoverCommit_eq (restored : ℕ × ℕ → List (Word × Word)) (samples : List TreeRefSample) :
    recoverCommit h restored samples key = restored key ++ appended h key samples := by
  have hone : ∀ (restored : ℕ × ℕ → List (Word × Word)) (s : TreeRefSample), (match h.forwardIndex s.key with
      | none => restored
      | some _ => update restored s.key (restored s.key ++ [(s.t, s.v)])) key =
        restored key ++ appended h key [s] := by
    intro restored s
    by_cases hkey : s.key = key
    · subst hkey
      cases hs : h.forwardIndex s.key <;> simp [appended, samplesOf, hs]
    · cases h.forwardIndex s.key <;>
        simp [appended, samplesOf, hkey, update_of_ne (Ne.symm hkey)]
  rw [recoverCommit, foldl_append hone]
  congr 1
  unfold appended
  split
  · rw [← samplesOf_flatMap, flatMap_singleton']
  · simp

theorem recoverRecord_eq (restored : ℕ × ℕ → List (Word × Word)) (batch : List TreeRefSample) :
    recoverRecord h restored batch key =
      restored key ++ appended h key (LogReader.readBatch batch) := by
  rw [recoverRecord, recoverCommit_eq, appended, appended]
  congr 1
  split_ifs with hsome
  · rw [samplesOf, filter_filter, samplesOf]
    congr 1
    refine filter_congr fun s _ => ?_
    by_cases hkey : s.key = key
    · simp [hkey, hsome]
    · simp [hkey]
  · rfl

theorem restored_eq (disk : LogDisk) :
    disk.sampleLogs.foldl (recoverSamplesFromLog h) (fun _ => []) key =
      appended h key (disk.sampleLogs.flatten.flatMap LogReader.readBatch) := by
  have hlog : ∀ restored log, recoverSamplesFromLog h restored log key =
      restored key ++ log.flatMap fun batch => appended h key (LogReader.readBatch batch) :=
    fun restored log => foldl_append recoverRecord_eq log restored
  rw [foldl_append hlog, nil_append]
  unfold appended
  split
  · rw [samplesOf_flatMap, ← flatMap_id, flatMap_assoc]
    rfl
  · simp

end Restored

/-- Lists that agree in all but the values, and in the values of each series. -/
theorem eq_of_samplesOf {l l' : List TreeRefSample} (h : Forall₂ LogReader.SameButValue l l')
    (hall : ∀ s ∈ l, samplesOf s.key l' = samplesOf s.key l) : l' = l := by
  induction h with
  | nil => rfl
  | @cons s s' l l' hs _ ih =>
    have hkey : s'.key = s.key := by
      rw [← hs]
      rfl
    have hhead := hall s mem_cons_self
    simp only [samplesOf, hkey, filter_cons, decide_true, if_true, map_cons, cons_eq_cons,
      Prod.mk.injEq] at hhead
    have heq : s' = s := by
      rw [← hs, ← hhead.1.2]
    refine cons_eq_cons.mpr ⟨heq, ih fun s₁ hs₁ => ?_⟩
    have htail := hall s₁ (mem_cons_of_mem _ hs₁)
    simp only [samplesOf, heq, filter_cons] at htail
    split at htail
    · exact (cons_eq_cons.mp htail).2
    · exact htail

theorem decoded_eq_of_flatMap {batches : List (List TreeRefSample)}
    (h : batches.flatMap LogReader.decoded = batches.flatten) :
    ∀ batch ∈ batches, LogReader.decoded batch = batch := by
  induction batches with
  | nil => exact fun _ hb => absurd hb not_mem_nil
  | cons b batches ih =>
    rw [flatMap_cons, flatten_cons] at h
    obtain ⟨hb, hrest⟩ := append_inj h (LogReader.forall₂_decoded b).length_eq.symm
    exact forall_mem_cons.mpr ⟨hb, ih hrest⟩

/-! ### The series of a run -/

structure Stamped (r : TreeRefSeries) : Prop where
  owned : r.lsetPtr = none
  lset_nil_iff : r.lset = [] ↔ r.sgid.toNat = 0

namespace RecoveredHead

def NoZero (h : RecoveredHead) : Prop :=
  (∀ mid, h.head.forwardIndex (0, mid) = none) ∧ 0 ∉ h.pooled

theorem noZero_init : init.NoZero :=
  ⟨fun _ => rfl, not_mem_nil⟩

variable {lset : Labels} {r : TreeRefSeries} {h : RecoveredHead}

theorem exists_poolSource (h : RecoveredHead) (sgid : ℕ) (hne : lset ≠ []) :
    ∃ h', h.poolSource sgid lset = .ok h' ∧
      ∀ i ∈ h'.pooled, i ∈ h.pooled ∨ i = sgid := by
  have hempty : ¬lset.isEmpty = true := fun h => hne (List.isEmpty_iff.mp h)
  unfold poolSource
  split
  next => exact ⟨_, rfl, fun i hi => (mem_cons.mp hi).symm⟩
  next => exact ⟨h, rfl, fun i hi => Or.inl hi⟩

theorem exists_poolMetric (h : RecoveredHead) (mid : ℕ) (hne : lset ≠ []) :
    ∃ h', h.poolMetric mid lset = .ok h' ∧ h'.pooled = h.pooled := by
  have hempty : ¬lset.isEmpty = true := fun h => hne (List.isEmpty_iff.mp h)
  unfold poolMetric
  split
  next => exact ⟨_, rfl, rfl⟩
  next => exact ⟨h, rfl, rfl⟩

theorem exists_getOrCreateWithId (h : RecoveredHead) (sgid mid : ℕ) (hne : lset ≠ []) :
    ∃ res, h.getOrCreateWithId sgid mid lset = .ok res ∧
      ∀ i ∈ res.2.pooled, i ∈ h.pooled ∨ i = sgid := by
  unfold getOrCreateWithId
  split
  next => exact ⟨_, rfl, fun i hi => Or.inl hi⟩
  next =>
    obtain ⟨h₁, hsource, hpooled₁⟩ := exists_poolSource
      { h with head := (h.head.newSeries (sgid, mid)).addPostings sgid lset } sgid hne
    obtain ⟨h₂, hmetric, hpooled₂⟩ := exists_poolMetric h₁ mid hne
    simp only [hsource, hmetric, bind, Except.bind]
    exact ⟨_, rfl, fun i hi => hpooled₁ i (hpooled₂ ▸ hi)⟩

theorem exists_recoverSeries (h : RecoveredHead) (hne : r.lset ≠ []) :
    ∃ h', h.recoverSeries r = .ok h' ∧
      ∀ i ∈ h'.pooled, i ∈ h.pooled ∨ i = r.sgid.toNat := by
  obtain ⟨⟨⟨series, new⟩, h₁⟩, hcall, hpooled⟩ :=
    exists_getOrCreateWithId h r.sgid.toNat r.mid.toNat hne
  simp only [recoverSeries, hcall, bind, Except.bind]
  cases new
  · exact ⟨_, rfl, hpooled⟩
  · exact ⟨_, rfl, hpooled⟩

theorem NoZero.recoverSeries {h' : RecoveredHead} (hzero : h.NoZero) (hr : Stamped r)
    (hne : r.lset ≠ []) (hok : h.recoverSeries r = .ok h') : h'.NoZero := by
  obtain ⟨h'', hok', hpooled⟩ := exists_recoverSeries h hne
  obtain rfl : h'' = h' := Except.ok.inj (hok'.symm.trans hok)
  have hsgid : r.sgid.toNat ≠ 0 := fun h => hne (hr.lset_nil_iff.mpr h)
  refine ⟨fun mid => ?_, fun hmem => ?_⟩
  · obtain ⟨⟨⟨series, new⟩, h₁⟩, hcall, hlast⟩ := Run.bind_eq_ok hok
    obtain ⟨-, -, hforwards, -⟩ := getOrCreateWithId_eq_ok hcall
    have hsame : h''.head.forwardIndex = h₁.head.forwardIndex := by
      cases new <;> cases hlast <;> rfl
    rw [hsame]
    cases hkey : h₁.head.forwardIndex (0, mid) with
    | none => rfl
    | some old =>
      have htable := (congrFun (congrArg Interner.table hforwards) (0, mid)).symm.trans hkey
      rcases Interner.table_intern_cases htable with hold | ⟨-, heq, -⟩
      · cases (hzero.1 mid).symm.trans hold
      · exact absurd (Prod.mk.inj heq).1.symm hsgid
  · rcases hpooled 0 hmem with hold | hnew
    · exact hzero.2 hold
    · exact hsgid hnew.symm

theorem recoverSeries_ne_ok {h' : RecoveredHead} (hzero : h.NoZero) (hr : Stamped r)
    (hnil : r.lset = []) : h.recoverSeries r ≠ .ok h' := by
  intro hok
  have hpool : 0 < maxSourceNum ∧ 0 ∉ h.pooled := ⟨by decide, hzero.2⟩
  rw [recoverSeries, hr.lset_nil_iff.mp hnil, hnil, getOrCreateWithId, hzero.1] at hok
  simp only [poolSource, if_pos hpool] at hok
  cases hok

theorem recoverSeries_foldlM_iff (hzero : h.NoZero) {log : List TreeRefSeries}
    (hlog : ∀ r ∈ log, Stamped r) :
    (∃ h', log.foldlM recoverSeries h = .ok h') ↔ ∀ r ∈ log, r.lset ≠ [] := by
  induction log generalizing h with
  | nil => exact iff_of_true ⟨h, rfl⟩ fun r hr => absurd hr not_mem_nil
  | cons r log ih =>
    have hr := hlog r mem_cons_self
    have hrest : ∀ r ∈ log, Stamped r := fun q hq => hlog q (mem_cons_of_mem _ hq)
    rw [forall_mem_cons]
    by_cases hnil : r.lset = []
    · refine iff_of_false ?_ fun h => h.1 hnil
      rintro ⟨h', hok⟩
      rw [foldlM_cons] at hok
      obtain ⟨h₁, hfirst, -⟩ := Run.bind_eq_ok hok
      exact recoverSeries_ne_ok hzero hr hnil hfirst
    · obtain ⟨h₁, hfirst, -⟩ := exists_recoverSeries h hnil
      have hfold : (r :: log).foldlM recoverSeries h =
          log.foldlM recoverSeries h₁ := by
        rw [foldlM_cons, hfirst]
        rfl
      rw [hfold, ih (hzero.recoverSeries hr hnil hfirst) hrest]
      exact (and_iff_right hnil).symm

end RecoveredHead

section Restores

variable {disk : LogDisk} (hseries : ∀ r ∈ disk.series, Stamped r)
  (hread : disk.seriesLog.flatMap readSeries = disk.series)
  (hbatch : ∀ batch ∈ disk.sampleLogs.flatten, LogReader.readBatch batch = LogReader.decoded batch)

include hseries hread hbatch

theorem restores_iff :
    Restores disk ↔ (∀ r ∈ disk.series, r.lset ≠ []) ∧
      (∀ s ∈ disk.samples, ∃ r ∈ disk.series, r.key = s.key) ∧
      ∀ batch ∈ disk.sampleLogs.flatten, LogReader.NarrowBatch batch := by
  have hends := recoverSeries_foldlM_iff noZero_init hseries
  have hbatches : disk.sampleLogs.flatten.flatMap LogReader.readBatch =
      disk.sampleLogs.flatten.flatMap LogReader.decoded := flatMap_congr hbatch
  simp only [Restores, recoverSerial, hread, ← LogReader.decoded_eq_iff]
  constructor
  · rintro ⟨r, hok, hall⟩
    obtain ⟨h, hindex, hok⟩ := Run.bind_eq_ok hok
    cases hok
    have hrestored : ∀ key, appended h.head key (disk.sampleLogs.flatten.flatMap
        LogReader.decoded) = samplesOf key disk.samples := fun key => by
      rw [← hbatches, ← restored_eq, ← hall]
    have hknown : ∀ s ∈ disk.samples, (h.head.forwardIndex s.key).isSome = true := by
      intro s hs
      by_contra hnone
      have hmem : (s.t, s.v) ∈ samplesOf s.key disk.samples :=
        mem_map.mpr ⟨s, mem_filter.mpr ⟨hs, by simp⟩, rfl⟩
      rw [← hrestored, appended, if_neg hnone] at hmem
      exact absurd hmem not_mem_nil
    refine ⟨hends.mp ⟨h, hindex⟩, fun s hs => ?_, decoded_eq_of_flatMap ?_⟩
    · obtain ⟨series, hkey⟩ := Option.isSome_iff_exists.mp (hknown s hs)
      exact (recovered_recoverIndexFromLog hindex).exists_of_forwardIndex hkey
    · have hsame : Forall₂ LogReader.SameButValue disk.sampleLogs.flatten.flatten
          (disk.sampleLogs.flatten.flatMap LogReader.decoded) := by
        rw [flatMap_def]
        exact rel_flatten (forall₂_map_right_iff.mpr
          (forall₂_same.mpr fun batch _ => LogReader.forall₂_decoded batch))
      refine eq_of_samplesOf hsame fun s hs => ?_
      have hkey := hrestored s.key
      rwa [appended, if_pos (hknown s hs)] at hkey
  · rintro ⟨hlabels, hlogged, hnarrow⟩
    obtain ⟨h, hindex⟩ := hends.mpr hlabels
    refine ⟨_, by rw [recoverIndexFromLog, hindex]; rfl, fun key => ?_⟩
    dsimp only
    rw [restored_eq, hbatches, flatMap_congr hnarrow, flatMap_id', ← LogDisk.samples, appended]
    split_ifs with hsome
    · rfl
    · symm
      rw [samplesOf, map_eq_nil_iff, filter_eq_nil_iff]
      intro s hs hkey
      obtain ⟨r, hr, hrkey⟩ := hlogged s hs
      have hmem : key ∈ (disk.series.map TreeRefSeries.key).toFinset := by
        rw [mem_toFinset, mem_map]
        exact ⟨r, hr, hrkey.trans (of_decide_eq_true hkey)⟩
      obtain ⟨series, hseries⟩ :=
        ((recovered_recoverIndexFromLog hindex).forwards.mem_iff _).mp hmem
      exact hsome (Option.isSome_iff_exists.mpr ⟨series, hseries⟩)

end Restores

/-! ### Runs -/

namespace PWal

variable {lset : Labels} {p : PWal}

theorem stamped_refSeries {h : TreeHead} {groups metrics : Finset (List Byte)}
    (hr : h.Registered groups metrics) {ids : ℕ × ℕ} (hids : seriesIds h lset = .ok ids) :
    Stamped (refSeries ids lset) := by
  refine ⟨rfl, ?_⟩
  unfold refSeries
  by_cases hnil : lset = []
  · subst hnil
    cases hids
    exact iff_of_true rfl rfl
  · refine iff_of_false hnil ?_
    obtain ⟨res₁, hsource, hids⟩ := Run.bind_eq_ok hids
    obtain ⟨res₂, -, hids⟩ := Run.bind_eq_ok hids
    cases hids
    obtain ⟨hid, hsources, -, -, hlt⟩ := TreeHead.getOrCreateSourceId_eq_ok hnil hsource
    have hvalid := hr.sources.intern (labelSourceGroup lset)
    have hself := Interner.table_intern_self h.sources (labelSourceGroup lset)
    rw [← hid] at hself
    have hpos : 0 < res₁.1.1 := hvalid.pos hself
    have hle : res₁.1.1 ≤ res₁.2.lastSourceGroupId :=
      (hvalid.le hself).trans_eq (congrArg Interner.count hsources).symm
    have hbound : res₁.1.1 < 2 ^ 64 :=
      (hle.trans_lt (hlt hr.sources_lt)).trans (by decide)
    rw [BitVec.toNat_ofNat, Nat.mod_eq_of_lt hbound]
    exact hpos.ne'

theorem registered_getOrCreateByThmap {h : TreeHead}
    (hr : ∃ groups metrics, h.Registered groups metrics) {res : (ℕ × Bool) × TreeHead}
    (hok : h.getOrCreateByThmap lset = .ok res) :
    ∃ groups metrics, res.2.Registered groups metrics := by
  obtain ⟨groups, metrics, hr⟩ := hr
  by_cases hnil : lset = []
  · subst hnil
    obtain rfl : h.findSeries (0, 0) = res := Except.ok.inj hok
    obtain ⟨-, hforwards, hsources, hmetrics⟩ := h.findSeries_eq (0, 0)
    obtain ⟨keys, hkeys⟩ := hr.forwards
    refine ⟨groups, metrics, hsources ▸ hr.sources, hmetrics ▸ hr.metrics,
      ⟨_, hforwards ▸ hkeys.intern (0, 0)⟩, ?_, ?_⟩
    · exact (congrArg Interner.count hsources).trans_lt hr.sources_lt
    · exact (congrArg Interner.count hmetrics).trans_lt hr.metrics_lt
  · exact ⟨_, _, hr.getOrCreateByThmap hnil hok⟩

structure SeriesStamped (p : PWal) : Prop where
  registered : ∃ groups metrics, p.head.Registered groups metrics
  appender : ∀ a, ∀ r ∈ (p.appender a).series, Stamped r
  queue : ∀ r ∈ p.seriesQueue, Stamped r
  log : ∀ record ∈ p.seriesLog, ∀ r ∈ record, Stamped r

theorem seriesStamped_init : init.SeriesStamped where
  registered := ⟨∅, ∅, TreeHead.registered_init⟩
  appender _ _ hr := nomatch hr
  queue _ hr := nomatch hr
  log _ hrecord := nomatch hrecord

theorem series_update {a : ℕ} {app : TreeHeadAppender}
    (hp : ∀ a, ∀ r ∈ (p.appender a).series, Stamped r) (happ : ∀ r ∈ app.series, Stamped r) :
    ∀ b, ∀ r ∈ (update p.appender a app b).series, Stamped r := by
  intro b r hr
  by_cases hb : b = a
  · rw [hb, update_self] at hr
    exact happ r hr
  · rw [update_of_ne hb] at hr
    exact hp b r hr

theorem SeriesStamped.addFast (hp : p.SeriesStamped) (a : ℕ) (sgid : Word) (mid : BitVec 16)
    (t v : Word) : (p.addFast a sgid mid t v).SeriesStamped := by
  unfold PWal.addFast
  split
  next => exact hp
  next => exact ⟨hp.registered, series_update hp.appender (hp.appender a), hp.queue, hp.log⟩

theorem SeriesStamped.add {p' : PWal} (hp : p.SeriesStamped) {a : ℕ} {t v : Word}
    (hok : p.add a lset t v = .ok p') : p'.SeriesStamped := by
  obtain ⟨ids, hids, hok⟩ := Run.bind_eq_ok hok
  obtain ⟨⟨⟨series, new⟩, head⟩, hcall, hok⟩ := Run.bind_eq_ok hok
  cases hok
  obtain ⟨groups, metrics, hr⟩ := hp.registered
  refine SeriesStamped.addFast (p := { p with
    head := head
    appender := update p.appender a _ }) ?_ _ _ _ _ _
  refine ⟨registered_getOrCreateByThmap hp.registered hcall,
    series_update hp.appender fun r hmem => ?_, hp.queue, hp.log⟩
  split at hmem
  next =>
    rcases mem_append.mp hmem with hmem | hmem
    · exact hp.appender a r hmem
    · rw [mem_singleton.mp hmem]
      exact stamped_refSeries hr hids
  next => exact hp.appender a r hmem

theorem SeriesStamped.step {walNum : ℕ} {p' : PWal} (hp : p.SeriesStamped) {op : Op}
    (hok : p.step walNum op = .ok p') : p'.SeriesStamped := by
  cases op with
  | add a lset t v => exact hp.add hok
  | addFast a sgid mid t v =>
    cases hok
    exact hp.addFast a sgid mid t v
  | log a =>
    simp only [PWal.step, PWal.log] at hok
    split at hok
    next => cases hok
    next =>
      cases hok
      refine ⟨hp.registered, series_update hp.appender fun r hr => absurd hr not_mem_nil,
        fun r hr => ?_, hp.log⟩
      rcases mem_append.mp hr with hr | hr
      · exact hp.queue r hr
      · exact hp.appender a r hr
  | append a =>
    simp only [PWal.step, PWal.append] at hok
    split at hok
    next => cases hok
    next =>
      split at hok
      next =>
        cases hok
        exact ⟨hp.registered, series_update hp.appender (hp.appender a), hp.queue, hp.log⟩
      next =>
        split_ifs at hok
        all_goals cases hok
        all_goals
          exact ⟨hp.registered, series_update hp.appender (hp.appender a), hp.queue, hp.log⟩
  | writeSeries n =>
    simp only [PWal.step, PWal.writeSeries] at hok
    split at hok
    next =>
      cases hok
      refine ⟨hp.registered, hp.appender, fun r hr => hp.queue r (mem_of_mem_drop hr),
        fun record hrecord r hr => ?_⟩
      rcases mem_append.mp hrecord with hrecord | hrecord
      · exact hp.log record hrecord r hr
      · rw [mem_singleton.mp hrecord] at hr
        exact hp.queue r (mem_of_mem_take hr)
    next => cases hok
  | writeSamples i n extend =>
    simp only [PWal.step, PWal.writeSamples] at hok
    split at hok
    next =>
      cases hok
      exact ⟨hp.registered, hp.appender, hp.queue, hp.log⟩
    next => cases hok
  | clean i slot =>
    simp only [PWal.step, PWal.clean] at hok
    split_ifs at hok
    cases hok
    exact ⟨hp.registered, hp.appender, hp.queue, hp.log⟩

theorem readSeries_eq {batch : List TreeRefSeries} (hbatch : ∀ r ∈ batch, Stamped r)
    (hlen : (LogWriter.treeSeries batch).length < 2 ^ 31) : readSeries batch = batch := by
  rw [readSeries, LogReader.treeSeries_eq (Nat.lt_succ_self _) hlen]
  refine (map_congr_left fun r hr => ?_).trans (map_id batch)
  have howned := (hbatch r hr).owned
  obtain ⟨sgid, mid, lset, lsetPtr, flushedTxn, logCleanTxn⟩ := r
  cases howned
  rfl

theorem Consistent.length_record_le {walNum : ℕ} (hp : p.Consistent walNum) (i : ℕ) :
    ∀ batch ∈ (p.wal i).records, batch.length ≤ itemNum := by
  intro batch hbatch
  obtain ⟨n, -, hbatch⟩ := mem_flatMap.mp hbatch
  obtain ⟨record, hrecord, rfl⟩ := mem_map.mp hbatch
  rw [length_map]
  cases hfile : (p.wal i).files n with
  | none => simp [hfile] at hrecord
  | some records => exact hp.batched i n records hfile record (by simpa [hfile] using hrecord)

/-- After a crash that leaves records of series shorter than 2 GiB, recovery restores every
sample on disk exactly if every series on disk has labels, the series of every sample is on
disk, and every record of samples is read back. -/
theorem recoverSerial_restores_iff (walNum : ℕ) {p : PWal}
    (hreach : Run.Reaches (fun _ _ => True) (step walNum) init p) {disk : LogDisk}
    (hcrash : p.Crash walNum disk)
    (hseries : ∀ batch ∈ disk.seriesLog, (LogWriter.treeSeries batch).length < 2 ^ 31) :
    Restores disk ↔ (∀ r ∈ disk.series, r.lset ≠ []) ∧
      (∀ s ∈ disk.samples, ∃ r ∈ disk.series, r.key = s.key) ∧
      ∀ batch ∈ disk.sampleLogs.flatten, LogReader.NarrowBatch batch := by
  have hp : p.SeriesStamped :=
    hreach.invariant seriesStamped_init fun _ _ _ hp _ hok => hp.step hok
  have hstamped : ∀ batch ∈ disk.seriesLog, ∀ r ∈ batch, Stamped r := fun batch hbatch =>
    hp.log batch (hcrash.seriesLog.subset hbatch)
  refine restores_iff (fun r hr => ?_) ?_ fun batch hbatch => ?_
  · obtain ⟨batch, hbatch, hmem⟩ := mem_flatten.mp hr
    exact hstamped batch hbatch r hmem
  · rw [LogDisk.series, flatMap_congr fun batch hbatch =>
      readSeries_eq (hstamped batch hbatch) (hseries batch hbatch), flatMap_id']
  · obtain ⟨log, hlog, hmem⟩ := mem_flatten.mp hbatch
    obtain ⟨i, hi⟩ := mem_iff_getElem?.mp hlog
    have hlen := (consistent_of_reaches hreach).length_record_le i batch
      ((hcrash.sampleLogs i log hi).subset hmem)
    exact LogReader.readBatch_eq (hlen.trans_lt (by decide))

def firstBatch : List TreeRefSample :=
  [⟨1, 1, 1000, 0x3FF0000000000000, 0⟩, ⟨1, 1, 2000, 0x4000000000000000, 0⟩]

def firstDisk (seriesLog : List (List TreeRefSeries)) : LogDisk :=
  ⟨seriesLog, [[], [firstBatch], [], [], []]⟩

theorem crash_firstDisk (hrecords : (p.wal 1).records = [firstBatch])
    {seriesLog : List (List TreeRefSeries)} (hseries : seriesLog <+: p.seriesLog) :
    p.Crash 5 (firstDisk seriesLog) := by
  refine ⟨hseries, rfl, fun i log hlog => ?_⟩
  match i, hlog with
  | 0, hlog | 2, hlog | 3, hlog | 4, hlog =>
    cases hlog
    exact nil_prefix
  | 1, hlog =>
    cases hlog
    rw [hrecords]

def firstRun : List Op :=
  firstBatch.map (fun s => .add 0 loggedUp.lset s.t s.v) ++ [.log 0, .writeSamples 1 2 false]

theorem recoverSerial_restores_firstRun :
    ∃ p disk, Run.Reaches (fun _ _ => True) (step 5) init p ∧ p.Crash 5 disk ∧
      disk.samples = firstBatch ∧ Restores disk := by
  have hrun : (Run.exec (fun _ _ => True) (step 5) init (firstRun ++ [.writeSeries 1])).map
      (fun p => ((p.wal 1).records, p.seriesLog)) = some ([firstBatch], [[loggedUp]]) := by
    decide +kernel
  obtain ⟨p, hp, hstate⟩ := Option.map_eq_some_iff.mp hrun
  obtain ⟨hrecords, hseries⟩ := Prod.mk.inj hstate
  have hreach := Run.reaches_of_exec hp
  have hcrash : p.Crash 5 (firstDisk [[loggedUp]]) :=
    crash_firstDisk hrecords (hseries ▸ prefix_rfl)
  have hnarrow : LogReader.NarrowBatch firstBatch :=
    (LogReader.decoded_eq_iff _).mp (by decide +kernel)
  exact ⟨p, _, hreach, hcrash, rfl, (recoverSerial_restores_iff 5 hreach hcrash (by decide)).mpr
    ⟨by decide, by decide, forall_mem_singleton.mpr hnarrow⟩⟩

/-- The crash leaves the samples and not their series, and recovery drops the samples. -/
theorem recoverSerial_drops :
    ∃ p disk, Run.exec (fun _ _ => True) (step 5) init firstRun = some p ∧ p.Crash 5 disk ∧
      disk.samples = firstBatch ∧ ¬Restores disk := by
  have hrun : (Run.exec (fun _ _ => True) (step 5) init firstRun).map
      (fun p => (p.wal 1).records) = some [firstBatch] := by
    decide +kernel
  obtain ⟨p, hp, hrecords⟩ := Option.map_eq_some_iff.mp hrun
  refine ⟨p, firstDisk [], hp, crash_firstDisk hrecords nil_prefix, rfl, ?_⟩
  rintro ⟨r, hok, hall⟩
  cases hok
  exact absurd (hall (1, 1)) (by decide +kernel)

end PWal

end PromTCS
