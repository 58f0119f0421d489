import PromTCS.Head.SeriesIdentity
import PromTCS.Wal.TreeRecords

/-!
# The head after a restart

`recover_index_from_log` reads the series that were logged before the restart and gives
each of them its logged ids again, together with its postings and its labels. The next
ids are those after the logged ones. The two tables from which `get_or_create_by_thmap`
takes the ids of a label set, `source_thmap_` and `metric_thmap_`, stay empty.

The log is the list of series that its records decode to, in the order of the files.
-/

namespace PromTCS

open List Interner

/-- The head during recovery. `source_labels_ptr_` has a pointer for the ids in
`pooled`, and null for the others. -/
structure RecoveredHead where
  head : TreeHead
  pooled : List ℕ

namespace RecoveredHead

def init : RecoveredHead := ⟨TreeHead.init, []⟩

variable (h : RecoveredHead)

def poolSource (sgid : ℕ) (lset : Labels) : Except Fault RecoveredHead :=
  if sgid < maxSourceNum ∧ sgid ∉ h.pooled then
    -- `lset.begin() + 1` of an empty vector
    if lset.isEmpty then throw .outOfBounds
    else pure
      { head :=
          { h.head with
            sourceLabelsPtr := Function.update h.head.sourceLabelsPtr sgid lset.tail }
        pooled := sgid :: h.pooled }
  else pure h

def poolMetric (mid : ℕ) (lset : Labels) : Except Fault RecoveredHead :=
  if mid < maxMetricNum ∧ h.head.metricLabelsPtr mid = none then
    if lset.isEmpty then throw .outOfBounds
    else pure
      { h with
        head :=
          { h.head with
            metricLabelsPtr := Function.update h.head.metricLabelsPtr mid lset.head? } }
  else pure h

/-- `get_or_create_with_id(sgid, mid, lset)`, with the series and whether it is new. -/
def getOrCreateWithId (sgid mid : ℕ) (lset : Labels) :
    Except Fault ((ℕ × Bool) × RecoveredHead) :=
  match h.head.forwardIndex (sgid, mid) with
  | some series => pure ((series, false), h)
  | none => do
    let head := (h.head.newSeries (sgid, mid)).addPostings sgid lset
    let h ← poolSource { h with head := head } sgid lset
    let h ← h.poolMetric mid lset
    pure ((head.nseries, true), h)

/-- The body of the loop of `recover_index_from_log`. -/
def recoverSeries (r : TreeRefSeries) : Except Fault RecoveredHead := do
  let ((_, new), h) ← h.getOrCreateWithId r.sgid.toNat r.mid.toNat r.lset
  if new then
    pure
      { h with
        head :=
          { h.head with
            lastSourceGroupId := max h.head.lastSourceGroupId r.sgid.toNat
            lastMetricId := max h.head.lastMetricId r.mid.toNat } }
  else pure h

def recoverIndexFromLog (log : List TreeRefSeries) : Except Fault RecoveredHead :=
  log.foldlM recoverSeries init

end RecoveredHead

def TreeRefSeries.key (r : TreeRefSeries) : ℕ × ℕ := (r.sgid.toNat, r.mid.toNat)

def RecallsSeries (h : TreeHead) (r : TreeRefSeries) : Prop :=
  ∃ series h', h.forwardIndex r.key = some series ∧
    h.getOrCreateByThmap r.lset = .ok ((series, false), h')

def FreshIds (h : TreeHead) (log : List TreeRefSeries) (lset : Labels) : Prop :=
  ∀ res, h.getOrCreateByThmap lset = .ok res →
    ∀ key, res.2.forwardIndex key = some res.1.1 → ∀ r ∈ log, key ≠ r.key

def IdentitySurvives (h : TreeHead) (log : List TreeRefSeries) : Prop :=
  (∀ r ∈ log, RecallsSeries h r) ∧
    ∀ lset, (∀ r ∈ log, r.lset ≠ lset) → FreshIds h log lset

/-! ### What recovery leaves -/

structure Recovered (h : TreeHead) (log : List TreeRefSeries) : Prop where
  sources : ∀ group, h.sourceThmap group = none
  metrics : ∀ metric, h.metricThmap metric = none
  forwards : h.forwards.Valid (log.map TreeRefSeries.key).toFinset
  sgid_le : ∀ r ∈ log, r.sgid.toNat ≤ h.lastSourceGroupId
  mid_le : ∀ r ∈ log, r.mid.toNat ≤ h.lastMetricId

namespace RecoveredHead

theorem recovered_init : Recovered init.head [] where
  sources _ := rfl
  metrics _ := rfl
  forwards := valid_empty
  sgid_le _ hr := nomatch hr
  mid_le _ hr := nomatch hr

structure SameTables (h h' : TreeHead) : Prop where
  sources : h'.sources = h.sources
  metrics : h'.metrics = h.metrics
  forwards : h'.forwards = h.forwards

theorem SameTables.trans {h₁ h₂ h₃ : TreeHead} (h : SameTables h₁ h₂) (h' : SameTables h₂ h₃) :
    SameTables h₁ h₃ :=
  ⟨h'.sources.trans h.sources, h'.metrics.trans h.metrics, h'.forwards.trans h.forwards⟩

variable {h : RecoveredHead} {lset : Labels}

theorem sameTables_poolSource {h' : RecoveredHead} {sgid : ℕ}
    (hok : h.poolSource sgid lset = .ok h') : SameTables h.head h'.head := by
  unfold poolSource at hok
  split_ifs at hok <;> cases hok <;> exact ⟨rfl, rfl, rfl⟩

theorem sameTables_poolMetric {h' : RecoveredHead} {mid : ℕ} (hok : h.poolMetric mid lset = .ok h') :
    SameTables h.head h'.head := by
  unfold poolMetric at hok
  split_ifs at hok <;> cases hok <;> exact ⟨rfl, rfl, rfl⟩

theorem getOrCreateWithId_eq_ok {sgid mid : ℕ} {res : (ℕ × Bool) × RecoveredHead}
    (hok : h.getOrCreateWithId sgid mid lset = .ok res) :
    res.2.head.sources = h.head.sources ∧ res.2.head.metrics = h.head.metrics ∧
      res.2.head.forwards = h.head.forwards.intern (sgid, mid) ∧
      (res.1.2 = false → ∃ series, h.head.forwardIndex (sgid, mid) = some series) := by
  unfold getOrCreateWithId at hok
  cases hkey : h.head.forwardIndex (sgid, mid) with
  | some series =>
    have hkey' : h.head.forwards.table (sgid, mid) = some series := hkey
    rw [hkey] at hok
    cases hok
    exact ⟨rfl, rfl, (intern_of_some hkey').symm, fun _ => ⟨series, rfl⟩⟩
  | none =>
    have hkey' : h.head.forwards.table (sgid, mid) = none := hkey
    rw [hkey] at hok
    obtain ⟨h₁, hsource, hok⟩ := Run.bind_eq_ok hok
    obtain ⟨h₂, hmetric, hok⟩ := Run.bind_eq_ok hok
    cases hok
    have hsame := (sameTables_poolSource hsource).trans (sameTables_poolMetric hmetric)
    refine ⟨hsame.sources, hsame.metrics, ?_, fun hnew => by cases hnew⟩
    rw [intern_of_none hkey']
    exact hsame.forwards

end RecoveredHead

open RecoveredHead

variable {log : List TreeRefSeries} {h : RecoveredHead}

theorem Recovered.exists_of_forwardIndex {h : TreeHead} (hrec : Recovered h log) {key : ℕ × ℕ}
    {series : ℕ} (hkey : h.forwardIndex key = some series) : ∃ r ∈ log, r.key = key := by
  have hmem := (hrec.forwards.mem_iff key).mpr ⟨series, hkey⟩
  rwa [mem_toFinset, mem_map] at hmem

theorem Recovered.recoverSeries {h' : RecoveredHead} (hrec : Recovered h.head log)
    {r : TreeRefSeries} (hok : h.recoverSeries r = .ok h') : Recovered h'.head (log ++ [r]) := by
  obtain ⟨⟨⟨series, new⟩, h₁⟩, hcall, hok⟩ := Run.bind_eq_ok hok
  obtain ⟨hsources, hmetrics, hforwards, hold⟩ := getOrCreateWithId_eq_ok hcall
  have hvalid : h₁.head.forwards.Valid ((log ++ [r]).map TreeRefSeries.key).toFinset := by
    have hkeys : ((log ++ [r]).map TreeRefSeries.key).toFinset =
        insert r.key (log.map TreeRefSeries.key).toFinset := by
      ext key
      simp [eq_comm]
    rw [hkeys, hforwards]
    exact hrec.forwards.intern r.key
  have hsource : ∀ group, h₁.head.sourceThmap group = none := fun group =>
    (congrFun (congrArg table hsources) group).trans (hrec.sources group)
  have hmetric : ∀ metric, h₁.head.metricThmap metric = none := fun metric =>
    (congrFun (congrArg table hmetrics) metric).trans (hrec.metrics metric)
  have hsgid : h₁.head.lastSourceGroupId = h.head.lastSourceGroupId :=
    congrArg count hsources
  have hmid : h₁.head.lastMetricId = h.head.lastMetricId := congrArg count hmetrics
  cases new with
  | true =>
    cases hok
    refine ⟨hsource, hmetric, hvalid, fun q hq => ?_, fun q hq => ?_⟩
    all_goals rcases mem_append.mp hq with hq | hq
    · exact ((hrec.sgid_le q hq).trans_eq hsgid.symm).trans (le_max_left _ _)
    · rw [mem_singleton.mp hq]
      exact le_max_right _ _
    · exact ((hrec.mid_le q hq).trans_eq hmid.symm).trans (le_max_left _ _)
    · rw [mem_singleton.mp hq]
      exact le_max_right _ _
  | false =>
    cases hok
    -- the ids were logged by an earlier record
    obtain ⟨old, hkey⟩ := hold rfl
    obtain ⟨q₀, hq₀, hkeys⟩ := hrec.exists_of_forwardIndex hkey
    obtain ⟨hs₀, hm₀⟩ := Prod.mk.inj hkeys
    refine ⟨hsource, hmetric, hvalid, fun q hq => ?_, fun q hq => ?_⟩
    all_goals rcases mem_append.mp hq with hq | hq
    · exact (hrec.sgid_le q hq).trans_eq hsgid.symm
    · rw [mem_singleton.mp hq, ← hs₀, hsgid]
      exact hrec.sgid_le q₀ hq₀
    · exact (hrec.mid_le q hq).trans_eq hmid.symm
    · rw [mem_singleton.mp hq, ← hm₀, hmid]
      exact hrec.mid_le q₀ hq₀

theorem Recovered.foldlM {h' : RecoveredHead} {rest : List TreeRefSeries}
    (hrec : Recovered h.head log) (hok : rest.foldlM RecoveredHead.recoverSeries h = .ok h') :
    Recovered h'.head (log ++ rest) := by
  induction rest generalizing h log with
  | nil =>
    cases hok
    rwa [append_nil]
  | cons r rest ih =>
    rw [foldlM_cons] at hok
    obtain ⟨h₁, hr, hok⟩ := Run.bind_eq_ok hok
    have hall := ih (hrec.recoverSeries hr) hok
    rwa [append_assoc] at hall

theorem recovered_recoverIndexFromLog (hok : recoverIndexFromLog log = .ok h) :
    Recovered h.head log :=
  recovered_init.foldlM hok

/-! ### Calls after the restart -/

section Calls

variable {h : TreeHead} {log : List TreeRefSeries} (hrec : Recovered h log)

include hrec

theorem Recovered.seriesKey_eq (lset : Labels) :
    h.seriesKey lset = (h.lastSourceGroupId + 1, h.lastMetricId + 1) :=
  Prod.ext (idOf_of_none (t := h.sources) (hrec.sources _))
    (idOf_of_none (t := h.metrics) (hrec.metrics _))

theorem Recovered.forwardIndex_seriesKey (lset : Labels) :
    h.forwardIndex (h.seriesKey lset) = none := by
  cases hkey : h.forwardIndex (h.seriesKey lset) with
  | none => rfl
  | some series =>
    obtain ⟨r, hr, hids⟩ := hrec.exists_of_forwardIndex hkey
    rw [hrec.seriesKey_eq] at hids
    have hsgid := (Prod.mk.inj hids).1 ▸ hrec.sgid_le r hr
    exact absurd hsgid (Nat.not_succ_le_self _)

theorem Recovered.getOrCreateByThmap {lset : Labels} (hne : lset ≠ [])
    {res : (ℕ × Bool) × TreeHead} (hok : h.getOrCreateByThmap lset = .ok res) :
    res.1.1 = h.nseries + 1 ∧ res.2.forwards = h.forwards.intern (h.seriesKey lset) := by
  obtain ⟨hid, -, -, hforwards, -⟩ := TreeHead.getOrCreateByThmap_eq_ok hne hok
  have hnone : h.forwards.table (h.seriesKey lset) = none := hrec.forwardIndex_seriesKey lset
  rw [idOf_of_none hnone] at hid
  exact ⟨hid, hforwards⟩

theorem Recovered.eq_nil_of_recalls {r : TreeRefSeries} (hrecall : RecallsSeries h r) :
    r.lset = [] ∧ r.key = (0, 0) := by
  obtain ⟨series, h', hkey, hok⟩ := hrecall
  have hle : series ≤ h.nseries := hrec.forwards.le hkey
  have hlset : r.lset = [] := by
    by_contra hne
    have hid : series = h.nseries + 1 := (hrec.getOrCreateByThmap hne hok).1
    exact absurd (hid ▸ hle) (Nat.not_succ_le_self _)
  refine ⟨hlset, ?_⟩
  rw [hlset] at hok
  have hfind : h.findSeries (0, 0) = ((series, false), h') := Except.ok.inj hok
  cases hzero : h.forwardIndex (0, 0) with
  | some old =>
    rw [TreeHead.findSeries, hzero] at hfind
    cases hfind
    exact hrec.forwards.injective hkey hzero
  | none =>
    rw [TreeHead.findSeries, hzero] at hfind
    cases hfind

end Calls

theorem recoverIndexFromLog_cons_ne {r : TreeRefSeries} {rest : List TreeRefSeries}
    (hok : recoverIndexFromLog (r :: rest) = .ok h) : ¬(r.lset = [] ∧ r.key = (0, 0)) := by
  rintro ⟨hlset, hkey⟩
  obtain ⟨hs, hm⟩ := Prod.mk.inj hkey
  rw [recoverIndexFromLog, foldlM_cons] at hok
  obtain ⟨h₁, hr, -⟩ := Run.bind_eq_ok hok
  rw [recoverSeries, hs, hm, hlset] at hr
  cases hr

/-- After the recovery of a log, labels keep their identity exactly if nothing was
logged. -/
theorem recoverIndexFromLog_identity_iff (log : List TreeRefSeries) {h : RecoveredHead}
    (hok : recoverIndexFromLog log = .ok h) : IdentitySurvives h.head log ↔ log = [] := by
  have hrec := recovered_recoverIndexFromLog hok
  constructor
  · intro hid
    cases log with
    | nil => rfl
    | cons r rest =>
      have hnil := hrec.eq_nil_of_recalls (hid.1 r mem_cons_self)
      exact absurd hnil (recoverIndexFromLog_cons_ne hok)
  · rintro rfl
    exact ⟨fun r hr => absurd hr not_mem_nil,
      fun lset _ res _ key _ r hr => absurd hr not_mem_nil⟩

/-- The series `up{a="1"}` with the first ids. -/
def loggedUp : TreeRefSeries where
  sgid := 1
  mid := 1
  lset := [⟨metricName, [117, 112]⟩, ⟨[97], [49]⟩]
  lsetPtr := none
  flushedTxn := 0
  logCleanTxn := 0

theorem exists_recoverIndexFromLog_loggedUp :
    ∃ h, recoverIndexFromLog [loggedUp] = .ok h := by
  cases hok : recoverIndexFromLog [loggedUp] with
  | ok h => exact ⟨h, rfl⟩
  | error e =>
    have hsome : (recoverIndexFromLog [loggedUp]).toOption.isSome := by decide +kernel
    rw [hok] at hsome
    cases hsome

theorem recoverIndexFromLog_identity_loggedUp :
    ∃ h, recoverIndexFromLog [loggedUp] = .ok h ∧ ¬IdentitySurvives h.head [loggedUp] := by
  obtain ⟨h, hok⟩ := exists_recoverIndexFromLog_loggedUp
  exact ⟨h, hok, fun hid =>
    absurd ((recoverIndexFromLog_identity_iff [loggedUp] hok).mp hid) (cons_ne_nil _ _)⟩

/-- A head gives the series its first ids and logs them. After the restart the same
labels get the second ids and another object. -/
theorem recoverIndexFromLog_forgets :
    (TreeHead.init.getOrCreateByThmap loggedUp.lset).toOption.map
        (fun res => (res.1, res.2.forwardIndex loggedUp.key)) = some ((1, true), some 1) ∧
      (recoverIndexFromLog [loggedUp]).toOption.bind (fun h =>
        (h.head.getOrCreateByThmap loggedUp.lset).toOption.map fun res =>
          (h.head.forwardIndex loggedUp.key, res.1, res.2.forwardIndex (2, 2))) =
        some (some 1, (2, true), some 2) := by
  decide +kernel

end PromTCS
