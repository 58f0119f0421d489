import PromTCS.Lsm.DbMap

/-!
# Flushes in progress

`CompactMemTableTree` takes the oldest immutable memtable out of `imms_`, and gives up the
mutex twice, while the tables are built and while the edit is written to the manifest,
before the new version is installed. The states here are those between two such points.
The memtable that was taken is then found neither in `imms_` nor in the current version,
and it stays lost if the tables cannot be built.

With a log, the edit says that only the current log is needed, and the logs before it are
deleted with the new version, although other immutable memtables may wait.

The runs are those without compactions of tables. After a failed flush none is scheduled, and
only the loop of a compaction, which does not look at `bg_error_`, would flush the next memtable.
-/

namespace PromTCS

open List Function DbImpl

/-- How far `CompactMemTableTree` has come. -/
inductive Flushing
  | idle
  | building (imm : List Entry)
  | applying (imm : List Entry) (metas : List TableFile) (logNumber : ℕ)
  | failed (imm : List Entry)
deriving DecidableEq, Repr

namespace Flushing

/-- The memtable that was taken out of `imms_` and is not in the current version. -/
def taken : Flushing → List (List Entry)
  | idle => []
  | building imm => [imm]
  | applying imm _ _ => [imm]
  | failed imm => [imm]

/-- `bg_error_` is set. -/
def isFailed : Flushing → Bool
  | failed _ => true
  | _ => false

end Flushing

/-- The database with its log files; `last` and `log` say which entry was last put for a
key and which log file received an entry. -/
structure FlushState where
  db : DbImpl
  flushing : Flushing
  logfileNumber : ℕ
  logNumber : ℕ
  logs : List ℕ
  last : TreeKey → Option Entry
  log : ℕ → ℕ

inductive FlushOp
  | put (k : TreeKey) (value : List Byte)
  | switch
  | start
  | build (ok : Bool)
  | apply (ok : Bool)
deriving DecidableEq, Repr

namespace FlushState

/-- After `DB::Open` of a new database. -/
def init (useLog : Bool) : FlushState :=
  if useLog then
    ⟨{ DbImpl.init with versions := { VersionSet.empty with next := 4 } }, .idle, 3, 3, [3],
      fun _ => none, fun _ => 0⟩
  else
    ⟨{ DbImpl.init with versions := { VersionSet.empty with next := 3 } }, .idle, 0, 0, [],
      fun _ => none, fun _ => 0⟩

variable (s : FlushState)

def put (k : TreeKey) (value : List Byte) : FlushState :=
  { s with
    db := s.db.put k value
    last := update s.last k (some ⟨⟨k, s.db.lastSequence + 1⟩, value⟩)
    log := update s.log (s.db.lastSequence + 1) s.logfileNumber }

def newLog : FlushState :=
  { s with
    db := { s.db with versions := { s.db.versions with next := s.db.versions.next + 1 } }
    logfileNumber := s.db.versions.next
    logs := s.logs ++ [s.db.versions.next] }

/-- `MakeRoomForWrite` with a memtable that is full. -/
def switch (useLog : Bool) (s : FlushState) : FlushState :=
  if useLog then { s.newLog with db := s.newLog.db.switch } else { s with db := s.db.switch }

def build (imm : List Entry) : FlushState :=
  let metas := buildTablesTree s.db.versions.next imm
  { s with
    db := { s.db with versions :=
      { s.db.versions with next := s.db.versions.next + metas.length } }
    flushing := .applying imm metas s.logfileNumber }

/-- The new version is installed, and `RemoveObsoleteFiles` deletes logs. -/
def apply (metas : List TableFile) (logNumber : ℕ) : FlushState :=
  { s with
    db := { s.db with versions := s.db.versions.addFiles metas }
    flushing := .idle
    logNumber := logNumber
    logs := s.logs.filter fun n => logNumber ≤ n ∨ n = 0 }

def step (useLog : Bool) (maxImmNum : ℕ) (s : FlushState) : FlushOp → Except Unit FlushState
  | .put k value => if s.flushing.isFailed then .error () else .ok (s.put k value)
  | .switch =>
    if s.flushing.isFailed ∨ maxImmNum ≤ s.db.imms.length then .error ()
    else .ok (s.switch useLog)
  | .start =>
    match s.flushing, s.db.imms with
    | .idle, imm :: imms =>
      .ok { s with db := { s.db with imms := imms }, flushing := .building imm }
    | _, _ => .error ()
  | .build ok =>
    match s.flushing with
    | .building imm => .ok (if ok then s.build imm else { s with flushing := .failed imm })
    | _ => .error ()
  | .apply ok =>
    match s.flushing with
    | .applying imm metas logNumber =>
      .ok (if ok then s.apply metas logNumber else { s with flushing := .failed imm })
    | _ => .error ()

/-- What a step that does not fail does. -/
inductive Effect (useLog : Bool) (s : FlushState) : FlushOp → FlushState → Prop
  | put (k : TreeKey) (value : List Byte) : Effect useLog s (.put k value) (s.put k value)
  | switch : Effect useLog s .switch (s.switch useLog)
  | start {imm : List Entry} {imms : List (List Entry)} (hidle : s.flushing = .idle)
      (himms : s.db.imms = imm :: imms) : Effect useLog s .start
        { s with db := { s.db with imms := imms }, flushing := .building imm }
  | build {imm : List Entry} (hbuilding : s.flushing = .building imm) :
      Effect useLog s (.build true) (s.build imm)
  | apply {imm : List Entry} {metas : List TableFile} {logNumber : ℕ}
      (happlying : s.flushing = .applying imm metas logNumber) :
      Effect useLog s (.apply true) (s.apply metas logNumber)
  | fail {imm : List Entry} {op : FlushOp} (htaken : s.flushing.taken = [imm]) :
      Effect useLog s op { s with flushing := .failed imm }

variable {useLog : Bool}

theorem effect_of_step {maxImmNum : ℕ} {s s' : FlushState} {op : FlushOp}
    (h : s.step useLog maxImmNum op = .ok s') : Effect useLog s op s' := by
  cases op with
  | put k value =>
    rw [step] at h
    split at h
    · cases h
    · cases h
      exact .put k value
  | switch =>
    rw [step] at h
    split at h
    · cases h
    · cases h
      exact .switch
  | start =>
    rw [step] at h
    split at h
    · rename_i imm imms hidle himms
      cases h
      exact .start hidle himms
    · cases h
  | build ok =>
    rw [step] at h
    split at h
    · rename_i imm hbuilding
      cases ok with
      | true =>
        cases h
        exact .build hbuilding
      | false =>
        cases h
        exact .fail (congrArg Flushing.taken hbuilding)
    · cases h
  | apply ok =>
    rw [step] at h
    split at h
    · rename_i imm metas logNumber happlying
      cases ok with
      | true =>
        cases h
        exact .apply happlying
      | false =>
        cases h
        exact .fail (congrArg Flushing.taken happlying)
    · cases h

def full : DbImpl :=
  { s.db with imms := s.flushing.taken ++ s.db.imms }

variable {s s' : FlushState}

theorem mem_full {e : Entry} :
    e ∈ s.full.stored ↔ (∃ t ∈ s.flushing.taken, e ∈ t) ∨ e ∈ s.db.stored := by
  rw [mem_stored, mem_stored, exists_mem_tables, exists_mem_tables]
  simp only [full, mem_append, or_and_right, exists_or, or_assoc]
  rfl

theorem tables_full : s.full.tables = s.flushing.taken ++ s.db.tables :=
  append_assoc _ _ _

structure Kept (s : FlushState) : Prop where
  aged : Aged s.full
  visible : ∀ e ∈ s.full.stored, e.seq ≤ s.db.lastSequence
  last_mem : ∀ k e, s.last k = some e → e.ikey.user = k ∧ e ∈ s.full.stored
  metas_eq : ∀ imm metas logNumber, s.flushing = .applying imm metas logNumber →
    ∃ next, metas = buildTablesTree next imm

theorem kept_init (useLog : Bool) : Kept (init useLog) := by
  have haged : Aged (init useLog).full := by
    cases useLog with
    | true => exact ⟨aged_init.tables_newer, aged_init.files_older⟩
    | false => exact ⟨aged_init.tables_newer, aged_init.files_older⟩
  refine ⟨haged, fun e he => ?_, fun k e he => ?_, fun imm metas logNumber h => ?_⟩
  · cases useLog <;> exact absurd he not_mem_nil
  · cases useLog <;> exact nomatch he
  · cases useLog <;> exact nomatch h

theorem Kept.unchanged (h : Kept s) (htables : s'.full.tables = s.full.tables)
    (hl0 : s'.full.entries0 = s.full.entries0) (hl1 : s'.full.entries1 = s.full.entries1)
    (hseq : s'.db.lastSequence = s.db.lastSequence) (hlast : s'.last = s.last)
    (hmetas : ∀ imm metas logNumber, s'.flushing = .applying imm metas logNumber →
      ∃ next, metas = buildTablesTree next imm) : Kept s' := by
  have hstored : s'.full.stored = s.full.stored := by
    rw [stored, htables, hl0, hl1, stored]
  refine ⟨⟨htables ▸ h.aged.tables_newer, ?_⟩, ?_, ?_, hmetas⟩
  · rw [htables, hl0, hl1]
    exact h.aged.files_older
  · rw [hstored, hseq]
    exact h.visible
  · rw [hstored, hlast]
    exact h.last_mem

theorem last_put (k : TreeKey) (value : List Byte) : (s.put k value).last =
    update s.last k (some ⟨⟨k, s.db.lastSequence + 1⟩, value⟩) := rfl

theorem Kept.put (h : Kept s) (k : TreeKey) (value : List Byte) : Kept (s.put k value) := by
  have hmem := mem_stored_put s.full k value
  refine ⟨h.aged.put h.visible k value, fun e he => ?_, fun k' e he => ?_, h.metas_eq⟩
  · rcases (hmem e).1 he with rfl | he
    · exact le_rfl
    · exact Nat.le_succ_of_le (h.visible e he)
  · by_cases hk : k' = k
    · rw [hk, last_put, update_self] at he
      cases he
      exact ⟨hk.symm, (hmem _).2 (Or.inl rfl)⟩
    · rw [last_put, update_of_ne hk] at he
      exact ⟨(h.last_mem k' e he).1, (hmem e).2 (Or.inr (h.last_mem k' e he).2)⟩

theorem full_switch : ({ s with db := s.db.switch } : FlushState).full = s.full.switch := by
  rw [full, full, DbImpl.switch, DbImpl.switch]
  simp only [append_assoc]

theorem Kept.switch (h : Kept s) : Kept { s with db := s.db.switch } := by
  have hmem := mem_stored_switch s.full
  refine ⟨?_, fun e he => ?_, fun k e he => ?_, h.metas_eq⟩
  · rw [full_switch]
    exact h.aged.switch
  · rw [full_switch, ← hmem] at he
    exact h.visible e he
  · rw [full_switch, ← hmem]
    exact h.last_mem k e he

theorem mem_entries0_addFiles (d : DbImpl) {metas : List TableFile} {next : ℕ} {imm : List Entry}
    (hmetas : metas = buildTablesTree next imm) (e : Entry) :
    e ∈ ({ d with versions := d.versions.addFiles metas } : DbImpl).entries0 ↔
      e ∈ imm ∨ e ∈ d.entries0 := by
  rw [mem_entries0, mem_entries0, ← (built_buildTablesTree next imm).mem_iff e,
    ← hmetas, or_comm, ← exists_or]
  refine exists_congr fun f => ?_
  rw [(d.versions.perm_l0_addFiles metas).mem_iff, mem_append, or_and_right]

theorem entries1_addFiles (d : DbImpl) (metas : List TableFile) :
    ({ d with versions := d.versions.addFiles metas } : DbImpl).entries1 = d.entries1 := by
  rw [entries1, VersionSet.files_l1_addFiles, entries1]

theorem Kept.apply (h : Kept s) {imm : List Entry} {metas : List TableFile} {logNumber : ℕ}
    (happlying : s.flushing = .applying imm metas logNumber) : Kept (s.apply metas logNumber) := by
  obtain ⟨next, hmetas⟩ := h.metas_eq imm metas logNumber happlying
  have htaken : s.flushing.taken = [imm] := congrArg Flushing.taken happlying
  have htables : s.full.tables = imm :: (s.apply metas logNumber).full.tables := by
    rw [tables_full, htaken]
    rfl
  have hl0 : ∀ e, e ∈ (s.apply metas logNumber).full.entries0 ↔ e ∈ imm ∨ e ∈ s.full.entries0 :=
    mem_entries0_addFiles s.db hmetas
  have hl1 : (s.apply metas logNumber).full.entries1 = s.full.entries1 :=
    entries1_addFiles s.db metas
  have hstored : ∀ e, e ∈ (s.apply metas logNumber).full.stored ↔ e ∈ s.full.stored := by
    intro e
    rw [mem_stored, mem_stored, hl0, hl1, htables]
    simp only [exists_mem_cons_iff, or_assoc]
    rw [or_left_comm]
  refine ⟨h.aged.moveOldest htables fun e he => ?_, fun e he => ?_, fun k e he => ?_,
    fun _ _ _ h => (nomatch h)⟩
  · rwa [hl0, hl1, or_assoc] at he
  · exact h.visible e ((hstored e).1 he)
  · exact ⟨(h.last_mem k e he).1, (hstored e).2 (h.last_mem k e he).2⟩

theorem Kept.step (h : Kept s) {op : FlushOp} (heffect : Effect useLog s op s') : Kept s' := by
  cases heffect with
  | put k value => exact h.put k value
  | switch =>
    cases useLog with
    | true => exact Kept.switch (s := s.newLog) (h.unchanged rfl rfl rfl rfl rfl h.metas_eq)
    | false => exact h.switch
  | start hidle himms =>
    refine h.unchanged ?_ rfl rfl rfl rfl fun _ _ _ h => (by cases h)
    rw [tables_full, tables_full, hidle, tables, tables, himms]
    rfl
  | build hbuilding =>
    refine h.unchanged ?_ rfl rfl rfl rfl fun _ _ _ h => ?_
    · rw [tables_full, tables_full, hbuilding]
      rfl
    · cases h
      exact ⟨_, rfl⟩
  | apply happlying => exact h.apply happlying
  | fail htaken =>
    refine h.unchanged ?_ rfl rfl rfl rfl fun _ _ _ h => (by cases h)
    rw [tables_full, tables_full, htaken]
    rfl

theorem kept_of_reaches {maxImmNum : ℕ} {allowed : FlushState → FlushOp → Prop}
    (hs : Run.Reaches allowed (FlushState.step useLog maxImmNum) (init useLog) s) : Kept s :=
  hs.invariant (P := Kept) (kept_init useLog) fun _ _ _ h _ hstep => h.step (effect_of_step hstep)

/-- Last entries are stored or in the memtable a flush has taken. -/
theorem flush_kept (maxImmNum : ℕ)
    (h : Run.Reaches (fun _ _ => True) (step useLog maxImmNum) (init useLog) s) : Kept s :=
  kept_of_reaches h

def overwritingRun : List FlushOp :=
  [.put ⟨1, 1, 0⟩ [1], .switch, .start, .put ⟨1, 1, 0⟩ [2]]

/-- The first memtable is flushed while a key of it is overwritten; the tables of the second one
cannot be built. -/
theorem flush_kept_failed : ∃ s : FlushState,
    s.flushing = .failed [⟨⟨⟨1, 1, 0⟩, 2⟩, [2]⟩] ∧ s.db.stored = [⟨⟨⟨1, 1, 0⟩, 1⟩, [1]⟩] ∧
      s.last ⟨1, 1, 0⟩ = some ⟨⟨⟨1, 1, 0⟩, 2⟩, [2]⟩ ∧ Kept s := by
  have hrun : (Run.exec (fun _ _ => True) (step true 3) (init true) (overwritingRun ++
      [.build true, .apply true, .switch, .start, .build false])).map
        (fun s => (s.flushing, s.db.stored, s.last ⟨1, 1, 0⟩)) =
      some (.failed [⟨⟨⟨1, 1, 0⟩, 2⟩, [2]⟩], [⟨⟨⟨1, 1, 0⟩, 1⟩, [1]⟩],
        some ⟨⟨⟨1, 1, 0⟩, 2⟩, [2]⟩) := by
    decide +kernel
  obtain ⟨s, hreach, hread⟩ := Run.exists_reaches_of_exec hrun
  obtain ⟨hflushing, hread⟩ := Prod.mk.inj hread
  obtain ⟨hstored, hlast⟩ := Prod.mk.inj hread
  exact ⟨s, hflushing, hstored, hlast, flush_kept 3 hreach⟩

theorem Kept.not_mem_of_taken (h : Kept s) {t : List Entry} (ht : t ∈ s.flushing.taken) {e : Entry}
    (he : e ∈ t) : e ∉ s.db.stored := by
  have haged := h.aged
  intro hmem
  rcases mem_stored.1 hmem with ⟨u, hu, heu⟩ | hfiles
  · have hnewer := haged.tables_newer
    rw [tables_full] at hnewer
    exact lt_irrefl _ ((pairwise_append.1 hnewer).2.2 t ht u hu e he e heu)
  · have htable : t ∈ s.full.tables := by
      rw [tables_full]
      exact mem_append_left _ ht
    exact lt_irrefl _ (haged.files_older t htable e he e hfiles)

end FlushState

open FlushState

/-- Every entry that was put and not overwritten is found exactly when those of the
memtable of an unfinished or failed flush have been overwritten. -/
theorem compactMemTableTree_loses_iff (useLog : Bool) (maxImmNum : ℕ) (s : FlushState)
    (hs : Run.Reaches (fun _ _ => True) (step useLog maxImmNum)
      (FlushState.init useLog) s) :
    (∀ k e, s.last k = some e → e ∈ s.db.stored) ↔
      ∀ imm ∈ s.flushing.taken, ∀ e ∈ imm, s.last e.ikey.user ≠ some e := by
  have h := kept_of_reaches hs
  constructor
  · intro hall imm himm e he hlast
    exact h.not_mem_of_taken himm he (hall _ e hlast)
  · intro hover k e hlast
    obtain ⟨rfl, hmem⟩ := h.last_mem k e hlast
    rcases mem_full.1 hmem with ⟨t, ht, he⟩ | hmem
    · exact absurd hlast (hover t ht e he)
    · exact hmem

theorem compactMemTableTree_loses_iff_overwritingRun : ∃ s : FlushState,
    s.flushing = .building [⟨⟨⟨1, 1, 0⟩, 1⟩, [1]⟩] ∧
      ∀ k e, s.last k = some e → e ∈ s.db.stored := by
  have hrun : (Run.exec (fun _ _ => True) (step true 3) (FlushState.init true)
      overwritingRun).map (fun s => (s.flushing, s.last ⟨1, 1, 0⟩)) =
        some (.building [⟨⟨⟨1, 1, 0⟩, 1⟩, [1]⟩], some ⟨⟨⟨1, 1, 0⟩, 2⟩, [2]⟩) := by
    decide +kernel
  obtain ⟨s, hreach, hread⟩ := Run.exists_reaches_of_exec hrun
  obtain ⟨hflushing, hlast⟩ := Prod.mk.inj hread
  refine ⟨s, hflushing, (compactMemTableTree_loses_iff true 3 s hreach).2 ?_⟩
  intro imm himm e he
  rw [hflushing] at himm
  rw [mem_singleton.1 himm] at he
  rw [mem_singleton.1 he, hlast]
  decide

def lostEntry : Entry :=
  ⟨⟨⟨1, 1, 0⟩, 1⟩, [1]⟩

theorem exists_lost {flushing : Flushing} (run : List FlushOp)
    (hrun : (Run.exec (fun _ _ => True) (step true 3) (FlushState.init true) run).map
      (fun s => (s.flushing, s.last lostEntry.ikey.user, s.db.stored)) =
        some (flushing, some lostEntry, [])) :
    ∃ s, Run.Reaches (fun _ _ => True) (step true 3) (FlushState.init true) s ∧
      s.flushing = flushing ∧ s.last lostEntry.ikey.user = some lostEntry ∧ s.db.stored = [] := by
  obtain ⟨s, hreach, hread⟩ := Run.exists_reaches_of_exec hrun
  obtain ⟨hphase, hread⟩ := Prod.mk.inj hread
  exact ⟨s, hreach, hphase, Prod.mk.inj hread⟩

/-- An entry that was put is found nowhere while the tables of its memtable are built, and
after that has failed. -/
theorem compactMemTableTree_loses :
    (∃ s, Run.Reaches (fun _ _ => True) (step true 3) (FlushState.init true) s ∧
      s.flushing = .building [lostEntry] ∧ s.last lostEntry.ikey.user = some lostEntry ∧
        s.db.stored = []) ∧
    ∃ s, Run.Reaches (fun _ _ => True) (step true 3) (FlushState.init true) s ∧
      s.flushing = .failed [lostEntry] ∧ s.last lostEntry.ikey.user = some lostEntry ∧
        s.db.stored = [] := by
  constructor
  · exact exists_lost [.put ⟨1, 1, 0⟩ [1], .switch, .start] (by decide +kernel)
  · exact exists_lost [.put ⟨1, 1, 0⟩ [1], .switch, .start, .build false] (by decide +kernel)

namespace FlushState

variable {s s' : FlushState}

def Allowed (s : FlushState) : FlushOp → Prop
  | .build true => ∀ t ∈ s.db.imms, t = []
  | _ => True

instance (s : FlushState) (op : FlushOp) : Decidable (s.Allowed op) := by
  cases op with
  | build ok => cases ok <;> unfold Allowed <;> infer_instance
  | _ => exact .isTrue trivial

def Retained (s : FlushState) : Prop :=
  ∀ t ∈ s.full.tables, ∀ e ∈ t, s.log e.seq ∈ s.logs

structure Logged (s : FlushState) : Prop where
  log_mem : ∀ e ∈ s.db.mem, s.log e.seq = s.logfileNumber
  log_lt : ∀ t ∈ s.flushing.taken ++ s.db.imms, ∀ e ∈ t, s.log e.seq < s.logfileNumber
  current : s.logfileNumber ∈ s.logs
  number_lt : s.logfileNumber < s.db.versions.next
  pos : ∀ n ∈ s.logs, 0 < n
  retained : s.Retained

def Covers (s : FlushState) : Prop :=
  ∀ imm metas logNumber, s.flushing = .applying imm metas logNumber →
    logNumber ≤ s.logfileNumber ∧ ∀ t ∈ s.db.imms, ∀ e ∈ t, logNumber ≤ s.log e.seq

theorem logged_init : Logged (init true) where
  log_mem := nofun
  log_lt := nofun
  current := mem_singleton_self 3
  number_lt := by decide
  pos := by decide
  retained := by
    intro t ht e he
    rw [mem_singleton.1 ht] at he
    exact absurd he not_mem_nil

theorem covers_init : Covers (init true) := fun _ _ _ h => (nomatch h)

theorem log_put (k : TreeKey) (value : List Byte) : (s.put k value).log =
    update s.log (s.db.lastSequence + 1) s.logfileNumber := rfl

theorem mem_put {k : TreeKey} {value : List Byte} {e : Entry} :
    e ∈ (s.put k value).db.mem ↔ e = ⟨⟨k, s.db.lastSequence + 1⟩, value⟩ ∨ e ∈ s.db.mem :=
  mem_orderedInsert _

theorem Kept.log_put_eq (h : Kept s) (k : TreeKey) (value : List Byte) {t : List Entry}
    (ht : t ∈ s.full.tables) {e : Entry} (he : e ∈ t) :
    (s.put k value).log e.seq = s.log e.seq := by
  have hle := h.visible e (mem_stored.2 (Or.inl ⟨t, ht, he⟩))
  rw [log_put, update_of_ne (Nat.lt_succ_of_le hle).ne]

theorem mem_tables_full {t : List Entry} :
    t ∈ s.full.tables ↔ t ∈ s.flushing.taken ++ s.db.imms ∨ t = s.db.mem := by
  rw [tables, full, mem_append, mem_singleton]

theorem Logged.put (h : Logged s) (hkept : Kept s) (k : TreeKey) (value : List Byte) :
    Logged (s.put k value) := by
  have hmem : ∀ e ∈ (s.put k value).db.mem, (s.put k value).log e.seq = s.logfileNumber := by
    intro e he
    rcases mem_put.1 he with rfl | he
    · exact update_self _ _ _
    · rw [hkept.log_put_eq k value (mem_tables_full.2 (Or.inr rfl)) he]
      exact h.log_mem e he
  have himms : ∀ t ∈ s.flushing.taken ++ s.db.imms, ∀ e ∈ t,
      (s.put k value).log e.seq = s.log e.seq := fun t ht e he =>
    hkept.log_put_eq k value (mem_tables_full.2 (Or.inl ht)) he
  refine ⟨hmem, fun t ht e he => ?_, h.current, h.number_lt, h.pos, fun t ht e he => ?_⟩
  · rw [himms t ht e he]
    exact h.log_lt t ht e he
  · rcases mem_tables_full.1 ht with ht | rfl
    · rw [himms t ht e he]
      exact h.retained t (mem_tables_full.2 (Or.inl ht)) e he
    · rw [hmem e he]
      exact h.current

theorem Covers.put (h : Covers s) (hkept : Kept s) (k : TreeKey) (value : List Byte) :
    Covers (s.put k value) := by
  intro imm metas logNumber happlying
  obtain ⟨hle, himms⟩ := h imm metas logNumber happlying
  refine ⟨hle, fun t ht e he => ?_⟩
  rw [hkept.log_put_eq k value (mem_tables_full.2 (Or.inl (mem_append_right _ ht))) he]
  exact himms t ht e he

theorem Logged.switch (h : Logged s) : Logged (s.switch true) := by
  have hlt : ∀ t ∈ s.full.tables, ∀ e ∈ t, s.log e.seq < s.db.versions.next := by
    intro t ht e he
    rcases mem_tables_full.1 ht with ht | rfl
    · exact (h.log_lt t ht e he).trans h.number_lt
    · rw [h.log_mem e he]
      exact h.number_lt
  have htables : (s.switch true).flushing.taken ++ (s.switch true).db.imms = s.full.tables :=
    (append_assoc _ _ _).symm
  refine ⟨fun _ he => absurd he not_mem_nil, fun t ht => hlt t (htables ▸ ht), ?_, ?_, ?_, ?_⟩
  · exact mem_append_right _ (mem_singleton_self _)
  · exact Nat.lt_succ_self _
  · intro n hn
    rcases mem_append.1 hn with hn | hn
    · exact h.pos n hn
    · rw [mem_singleton.1 hn]
      exact (Nat.zero_le _).trans_lt h.number_lt
  · intro t ht e he
    rcases mem_tables_full.1 ht with ht | rfl
    · exact mem_append_left _ (h.retained t (htables ▸ ht) e he)
    · exact absurd he not_mem_nil

theorem Covers.switch (h : Covers s) (hlogged : Logged s) : Covers (s.switch true) := by
  intro imm metas logNumber happlying
  obtain ⟨hle, himms⟩ := h imm metas logNumber happlying
  refine ⟨hle.trans hlogged.number_lt.le, fun t ht e he => ?_⟩
  rcases mem_append.1 ht with ht | ht
  · exact himms t ht e he
  · rw [mem_singleton.1 ht] at he
    rw [show (s.switch true).log = s.log from rfl, hlogged.log_mem e he]
    exact hle

theorem Logged.unchanged (h : Logged s) (hmem : s'.db.mem = s.db.mem)
    (htaken : s'.flushing.taken ++ s'.db.imms = s.flushing.taken ++ s.db.imms)
    (hlog : s'.log = s.log) (hlogs : s'.logs = s.logs)
    (hnumber : s'.logfileNumber = s.logfileNumber)
    (hnext : s.db.versions.next ≤ s'.db.versions.next) : Logged s' where
  log_mem := by rw [hmem, hlog, hnumber]; exact h.log_mem
  log_lt := by rw [htaken, hlog, hnumber]; exact h.log_lt
  current := by rw [hnumber, hlogs]; exact h.current
  number_lt := by rw [hnumber]; exact h.number_lt.trans_le hnext
  pos := by rw [hlogs]; exact h.pos
  retained := by
    intro t ht
    rw [mem_tables_full, htaken, hmem, ← mem_tables_full] at ht
    rw [hlog, hlogs]
    exact h.retained t ht

theorem mem_logs_apply {metas : List TableFile} {logNumber n : ℕ} :
    n ∈ (s.apply metas logNumber).logs ↔ n ∈ s.logs ∧ (logNumber ≤ n ∨ n = 0) := by
  rw [apply, mem_filter, decide_eq_true_eq]

theorem Logged.apply (h : Logged s) (metas : List TableFile) {logNumber : ℕ}
    (hle : logNumber ≤ s.logfileNumber)
    (himms : ∀ t ∈ s.db.imms, ∀ e ∈ t, logNumber ≤ s.log e.seq) :
    Logged (s.apply metas logNumber) := by
  have hwaits : ∀ t ∈ s.db.imms, t ∈ s.flushing.taken ++ s.db.imms := fun t ht =>
    mem_append_right _ ht
  refine ⟨h.log_mem, fun t ht => h.log_lt t (hwaits t ht), ?_, h.number_lt, ?_, ?_⟩
  · exact mem_logs_apply.2 ⟨h.current, Or.inl hle⟩
  · exact fun n hn => h.pos n (mem_logs_apply.1 hn).1
  · intro t ht e he
    rcases mem_tables_full.1 ht with ht | rfl
    · exact mem_logs_apply.2 ⟨h.retained t (mem_tables_full.2 (Or.inl (hwaits t ht))) e he,
        Or.inl (himms t ht e he)⟩
    · refine mem_logs_apply.2 ⟨h.retained _ (mem_tables_full.2 (Or.inr rfl)) e he, Or.inl ?_⟩
      exact hle.trans (h.log_mem e he).ge

theorem logged_step (h : Logged s ∧ Covers s) (hkept : Kept s) {op : FlushOp} (hop : s.Allowed op)
    (heffect : Effect true s op s') : Logged s' ∧ Covers s' := by
  obtain ⟨hlogged, hcovers⟩ := h
  cases heffect with
  | put k value => exact ⟨hlogged.put hkept k value, hcovers.put hkept k value⟩
  | switch => exact ⟨hlogged.switch, hcovers.switch hlogged⟩
  | start hidle himms =>
    refine ⟨hlogged.unchanged rfl ?_ rfl rfl rfl le_rfl, fun _ _ _ h => (nomatch h)⟩
    rw [hidle, himms]
    rfl
  | build hbuilding =>
    refine ⟨hlogged.unchanged rfl ?_ rfl rfl rfl (Nat.le_add_right _ _), fun _ _ _ h => ?_⟩
    · rw [hbuilding]
      rfl
    · cases h
      refine ⟨le_rfl, fun t ht e he => ?_⟩
      rw [hop t ht] at he
      exact absurd he not_mem_nil
  | apply happlying =>
    obtain ⟨hle, himms⟩ := hcovers _ _ _ happlying
    exact ⟨hlogged.apply _ hle himms, fun _ _ _ h => (nomatch h)⟩
  | fail htaken =>
    refine ⟨hlogged.unchanged rfl ?_ rfl rfl rfl le_rfl, fun _ _ _ h => (nomatch h)⟩
    rw [htaken]
    rfl

theorem logged_of_reaches {maxImmNum : ℕ}
    (hs : Run.Reaches Allowed (step true maxImmNum) (init true) s) :
    Kept s ∧ Logged s ∧ Covers s :=
  hs.invariant (P := fun s => Kept s ∧ Logged s ∧ Covers s)
    ⟨kept_init true, logged_init, covers_init⟩ fun _ _ _ h hop hstep =>
      ⟨h.1.step (effect_of_step hstep), logged_step h.2 h.1 hop (effect_of_step hstep)⟩

theorem Logged.retained_flush_iff (h : Logged s) {imm : List Entry}
    (hbuilding : s.flushing = .building imm) (metas : List TableFile) :
    ((s.build imm).apply metas s.logfileNumber).Retained ↔ ∀ t ∈ s.db.imms, t = [] := by
  have hbuilt : Logged (s.build imm) := by
    refine h.unchanged rfl ?_ rfl rfl rfl (Nat.le_add_right _ _)
    rw [hbuilding]
    rfl
  constructor
  · intro hretained t ht
    refine eq_nil_iff_forall_not_mem.2 fun e he => ?_
    have hlog := hretained t (mem_tables_full.2 (Or.inl ht)) e he
    obtain ⟨hmem, hkeep⟩ := mem_logs_apply.1 hlog
    rcases hkeep with hle | hzero
    · exact hle.not_gt (h.log_lt t (mem_append_right _ ht) e he)
    · exact (h.pos _ hmem).ne' hzero
  · intro hempty
    refine (hbuilt.apply metas le_rfl fun t ht e he => ?_).retained
    rw [hempty t ht] at he
    exact absurd he not_mem_nil

end FlushState

/-- When no memtable with entries waits at the end of a flush, every log is kept until its
memtable is in the current version; and a flush during which one waits deletes its log. -/
theorem compactMemTableTree_retains (maxImmNum : ℕ) (s : FlushState)
    (hs : Run.Reaches FlushState.Allowed (step true maxImmNum)
      (FlushState.init true) s) :
    s.Retained ∧ ∀ imm, s.flushing = .building imm → ∀ s₁ s₂,
      s.step true maxImmNum (.build true) = .ok s₁ →
      s₁.step true maxImmNum (.apply true) = .ok s₂ →
      (s₂.Retained ↔ ∀ t ∈ s.db.imms, t = []) := by
  obtain ⟨-, hlogged, -⟩ := logged_of_reaches hs
  refine ⟨hlogged.retained, fun imm hbuilding s₁ s₂ hbuild happly => ?_⟩
  have hs₁ : s₁ = s.build imm := by
    rw [step, hbuilding] at hbuild
    exact (Except.ok.inj hbuild).symm
  rw [hs₁] at happly
  rw [← Except.ok.inj happly]
  exact hlogged.retained_flush_iff hbuilding _

def flushingRun : List FlushOp :=
  [.put ⟨1, 1, 0⟩ [1], .switch, .start, .put ⟨2, 1, 0⟩ [2], .build true, .apply true]

theorem compactMemTableTree_retains_flushingRun : ∃ s : FlushState,
    s.logs = [4] ∧ s.db.mem = [⟨⟨⟨2, 1, 0⟩, 2⟩, [2]⟩] ∧ s.Retained := by
  have hrun : (Run.exec FlushState.Allowed (step true 3) (FlushState.init true)
      flushingRun).map (fun s => (s.logs, s.db.mem)) = some ([4], [⟨⟨⟨2, 1, 0⟩, 2⟩, [2]⟩]) := by
    decide +kernel
  obtain ⟨s, hreach, hread⟩ := Run.exists_reaches_of_exec hrun
  obtain ⟨hlogs, hmem⟩ := Prod.mk.inj hread
  exact ⟨s, hlogs, hmem, (compactMemTableTree_retains 3 s hreach).1⟩

def waitingRun : List FlushOp :=
  [.put ⟨1, 1, 0⟩ [1], .switch, .put ⟨2, 1, 0⟩ [2], .switch, .start, .build true, .apply true]

/-- The log of the second memtable, which still waits, is deleted. -/
theorem compactMemTableTree_deletesLog : ∃ s, Run.Reaches (fun _ _ => True)
    (step true 3) (FlushState.init true) s ∧
      s.db.imms = [[⟨⟨⟨2, 1, 0⟩, 2⟩, [2]⟩]] ∧ s.log 2 = 4 ∧ s.logs = [5] := by
  have hrun : (Run.exec (fun _ _ => True) (step true 3) (FlushState.init true)
      waitingRun).map (fun s => (s.db.imms, s.log 2, s.logs)) =
        some ([[⟨⟨⟨2, 1, 0⟩, 2⟩, [2]⟩]], 4, [5]) := by
    decide +kernel
  obtain ⟨s, hreach, hread⟩ := Run.exists_reaches_of_exec hrun
  obtain ⟨himms, hread⟩ := Prod.mk.inj hread
  exact ⟨s, hreach, himms, Prod.mk.inj hread⟩

end PromTCS
