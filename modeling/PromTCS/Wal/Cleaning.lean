import Mathlib.Data.List.TakeWhile
import PromTCS.Lib.Run
import PromTCS.Wal.GorillaRecord
import PromTCS.Wal.PWal

/-!
# Samples that cleaning must keep

A sample may leave the log files once the chunk it was appended to is in the slab store.
Every sample is logged with the transaction number zero, because the writer gives the
numbers only after the record is written, and zero is above no number. So cleaning keeps
nothing of the files it goes through, and while there is only the first file, this is the
one the writer has open.
-/

namespace PromTCS

open List Function CleanSampleLog

open RewriteFiles

namespace SampleWal

variable {w : SampleWal}

theorem inFile_addRecord (hopen : w.linked = true → (w.files w.curLogSeq).isSome)
    {record : List LogEntry} {n : ℕ} {e : LogEntry} :
    InFile (w.addRecord record).files n e ↔
      InFile w.files n e ∨ (w.linked = true ∧ n = w.curLogSeq ∧ e ∈ record) := by
  unfold addRecord
  by_cases hlinked : w.linked = true
  · obtain ⟨records, hfile⟩ := Option.isSome_iff_exists.mp (hopen hlinked)
    rw [if_pos hlinked]
    by_cases hn : n = w.curLogSeq
    · subst hn
      simp only [InFile, hfile, Option.map_some, update_self, Option.some.injEq,
        exists_eq_left', mem_append, mem_singleton, hlinked, true_and]
      constructor
      · rintro ⟨r, hr | rfl, he⟩
        · exact Or.inl ⟨r, hr, he⟩
        · exact Or.inr he
      · rintro (⟨r, hr, he⟩ | he)
        · exact ⟨r, Or.inl hr, he⟩
        · exact ⟨record, Or.inr rfl, he⟩
    · rw [inFile_update_of_ne hn]
      exact (or_iff_left fun h => hn h.2.1).symm
  · rw [if_neg hlinked]
    exact (or_iff_left fun h => hlinked h.1).symm

theorem inFile_extendLog {n : ℕ} {e : LogEntry} :
    InFile w.extendLog.files n e ↔ InFile w.files n e := by
  by_cases hn : n = w.curLogSeq + 1
  · subst hn
    cases hfile : w.files (w.curLogSeq + 1) <;> simp [InFile, extendLog, hfile]
  · exact inFile_update_of_ne hn

def Open (w : SampleWal) : Prop :=
  w.linked = true → (w.files w.curLogSeq).isSome

theorem Open.addRecord (h : w.Open) (record : List LogEntry) : (w.addRecord record).Open := by
  unfold SampleWal.addRecord
  split
  next hlinked =>
    obtain ⟨records, hfile⟩ := Option.isSome_iff_exists.mp (h hlinked)
    intro _
    simp [hfile]
  next => exact h

theorem open_extendLog (w : SampleWal) : w.extendLog.Open := by
  intro _
  simp [extendLog]

def Batched (w : SampleWal) : Prop :=
  ∀ n records, w.files n = some records → ∀ record ∈ records, record.length ≤ itemNum

theorem Batched.addRecord (h : w.Batched) {record : List LogEntry}
    (hlen : record.length ≤ itemNum) : (w.addRecord record).Batched := by
  unfold SampleWal.addRecord
  split
  next =>
    intro n records hfile r hr
    dsimp only at hfile
    by_cases hn : n = w.curLogSeq
    · rw [hn, update_self] at hfile
      obtain ⟨old, hold, rfl⟩ := Option.map_eq_some_iff.mp hfile
      rcases mem_append.mp hr with hr | hr
      · exact h _ old hold r hr
      · rwa [mem_singleton.mp hr]
    · rw [update_of_ne hn] at hfile
      exact h n records hfile r hr
  next => exact h

theorem Batched.extendLog (h : w.Batched) : w.extendLog.Batched := by
  intro n records hfile r hr
  by_cases hn : n = w.curLogSeq + 1
  · subst hn
    cases hold : w.files (w.curLogSeq + 1) with
    | none =>
      simp only [SampleWal.extendLog, hold, update_self] at hfile
      cases hfile
      cases hr
    | some old =>
      simp only [SampleWal.extendLog, hold, update_self] at hfile
      cases hfile
      exact h _ _ hold r hr
  · exact h n records ((update_of_ne hn _ _).symm.trans hfile) r hr

end SampleWal

namespace PWal

def Kept (p : PWal) : Prop :=
  ∀ e ∈ p.logged, e ∉ p.handed → ∃ i, Holds (p.wal i).files e

def Cleaned (p : PWal) (i j n : ℕ) : Prop :=
  j = i ∧ n ≤ lastFile (p.wal i).curLogSeq

def Allowed (p : PWal) : Op → Prop
  | .writeSamples i n _ => (p.wal i).linked = true ∨
      ∀ e ∈ (p.wal i).queue.take n, e ∈ p.handed ∨ ∃ j, Holds (p.wal j).files e
  | .clean i _ => ∀ n e, p.Cleaned i i n → InFile (p.wal i).files n e →
      e ∈ p.handed ∨ ∃ j m, InFile (p.wal j).files m e ∧ ¬p.Cleaned i j m
  | _ => True

structure Consistent (walNum : ℕ) (p : PWal) : Prop where
  files : ∀ i n e, InFile (p.wal i).files n e →
    e ∈ p.logged ∧ e.key.2 % walNum = i ∧ n ≤ (p.wal i).curLogSeq
  isOpen : ∀ i, (p.wal i).Open
  samples : ∀ a, ∀ s ∈ (p.appender a).samples, s.txn = 0
  queue : ∀ i, ∀ e ∈ (p.wal i).queue, e.sample.txn = 0 ∧ e.key.2 % walNum = i
  logged : ∀ e ∈ p.logged, e.sample.txn = 0
  batched : ∀ i, (p.wal i).Batched

theorem consistent_init (walNum : ℕ) : init.Consistent walNum where
  files i n e := by
    rintro ⟨records, hfile, record, hrecord, -⟩
    by_cases hn : n = 0
    · subst hn
      cases hfile
      cases hrecord
    · simp [init, hn] at hfile
  isOpen _ _ := rfl
  samples _ _ hs := nomatch hs
  queue _ _ he := nomatch he
  logged _ he := nomatch he
  batched _ n records hfile := by
    by_cases hn : n = 0
    · subst hn
      cases hfile
      exact fun _ hrecord => nomatch hrecord
    · simp [init, hn] at hfile

theorem kept_init : init.Kept := fun _ he => nomatch he

structure Quiet (p p' : PWal) : Prop where
  logged : p'.logged = p.logged
  handed : ∀ e ∈ p.handed, e ∈ p'.handed
  files : ∀ i, (p'.wal i).files = (p.wal i).files
  curLogSeq : ∀ i, (p'.wal i).curLogSeq = (p.wal i).curLogSeq
  linked : ∀ i, (p'.wal i).linked = (p.wal i).linked

variable {p p' : PWal} {walNum a : ℕ} {e : LogEntry}

theorem Quiet.kept (h : Quiet p p') (hkept : p.Kept) : p'.Kept := by
  intro e he hnot
  rw [h.logged] at he
  obtain ⟨i, hi⟩ := hkept e he fun hmem => hnot (h.handed e hmem)
  exact ⟨i, h.files i ▸ hi⟩

theorem Quiet.effect (hp : p.Consistent walNum) (h : Quiet p p')
    (hsamples : ∀ a, ∀ s ∈ (p'.appender a).samples, s.txn = 0)
    (hqueue : ∀ i, ∀ e ∈ (p'.wal i).queue, e.sample.txn = 0 ∧ e.key.2 % walNum = i) :
    Quiet p p' ∧ p'.Consistent walNum := by
  refine ⟨h, fun i n e he => ?_, fun i => ?_, hsamples, hqueue, fun e he => ?_, fun i => ?_⟩
  · rw [h.logged, h.curLogSeq]
    exact hp.files i n e (h.files i ▸ he)
  · rw [SampleWal.Open, h.linked, h.files, h.curLogSeq]
    exact hp.isOpen i
  · exact hp.logged e (h.logged ▸ he)
  · rw [SampleWal.Batched, h.files]
    exact hp.batched i

theorem quiet_of_eq (hlogged : p'.logged = p.logged) (hhanded : p'.handed = p.handed)
    (hwal : p'.wal = p.wal) : Quiet p p' where
  logged := hlogged
  handed _ he := hhanded ▸ he
  files i := by rw [hwal]
  curLogSeq i := by rw [hwal]
  linked i := by rw [hwal]

/-! ### The steps -/

theorem samples_update {app : TreeHeadAppender} (hp : ∀ a, ∀ s ∈ (p.appender a).samples, s.txn = 0)
    (happ : ∀ s ∈ app.samples, s.txn = 0) :
    ∀ b, ∀ s ∈ (update p.appender a app b).samples, s.txn = 0 := by
  intro b s hs
  by_cases hb : b = a
  · rw [hb, update_self] at hs
    exact happ s hs
  · rw [update_of_ne hb] at hs
    exact hp b s hs

theorem addFast_effect (hp : p.Consistent walNum) (a : ℕ) (sgid : Word) (mid : BitVec 16)
    (t v : Word) :
    Quiet p (p.addFast a sgid mid t v) ∧ (p.addFast a sgid mid t v).Consistent walNum := by
  unfold addFast
  split
  next => exact ⟨quiet_of_eq rfl rfl rfl, hp⟩
  next =>
    refine Quiet.effect hp (quiet_of_eq rfl rfl rfl)
      (samples_update hp.samples fun s hs => ?_) hp.queue
    rcases mem_append.mp hs with hs | hs
    · exact hp.samples a s hs
    · rw [mem_singleton.mp hs]

theorem add_effect (hp : p.Consistent walNum) {lset : Labels} {t v : Word}
    (hok : p.add a lset t v = .ok p') : Quiet p p' ∧ p'.Consistent walNum := by
  obtain ⟨ids, -, hok⟩ := Run.bind_eq_ok hok
  obtain ⟨⟨⟨series, new⟩, head⟩, -, hok⟩ := Run.bind_eq_ok hok
  cases hok
  set app := if new = true then
      { p.appender a with series := (p.appender a).series ++ [refSeries ids lset] }
    else p.appender a with happ
  have hsamples : app.samples = (p.appender a).samples := by
    rw [happ]
    split <;> rfl
  have hquiet₁ : Quiet p { p with
      head := head
      appender := update p.appender a app } := quiet_of_eq rfl rfl rfl
  have hp₁ := (Quiet.effect hp hquiet₁
    (samples_update hp.samples fun s hs => hp.samples a s (hsamples ▸ hs)) hp.queue).2
  obtain ⟨hquiet₂, hp₂⟩ := addFast_effect hp₁ a (BitVec.ofNat 64 ids.1) (BitVec.ofNat 16 ids.2) t v
  exact ⟨⟨hquiet₂.logged, hquiet₂.handed, hquiet₂.files, hquiet₂.curLogSeq, hquiet₂.linked⟩, hp₂⟩

theorem exists_sample_of_mem_entries {n : ℕ} {samples : List TreeRefSample}
    (he : e ∈ entries n samples) : e.sample ∈ samples := by
  obtain ⟨i, hi, rfl⟩ := mem_mapIdx.mp he
  exact getElem_mem hi

theorem log_effect (hp : p.Consistent walNum) (hok : p.log walNum a = .ok p') :
    Quiet p p' ∧ p'.Consistent walNum := by
  simp only [log] at hok
  split at hok
  next => cases hok
  next =>
    cases hok
    refine Quiet.effect hp ⟨rfl, fun _ he => he, fun _ => rfl, fun _ => rfl, fun _ => rfl⟩
      (samples_update hp.samples fun s hs => absurd hs not_mem_nil) fun i e he => ?_
    rcases mem_append.mp he with he | he
    · exact hp.queue i e he
    · obtain ⟨hmem, hmid⟩ := mem_filter.mp he
      exact ⟨hp.samples a _ (exists_sample_of_mem_entries hmem), of_decide_eq_true hmid⟩

theorem append_effect (hp : p.Consistent walNum) (hok : p.append a = .ok p') :
    Quiet p p' ∧ p'.Consistent walNum := by
  have hsamples : ∀ rest b, ∀ s ∈ (update p.appender a
      { p.appender a with committing := rest } b).samples, s.txn = 0 := fun rest =>
    samples_update hp.samples (hp.samples a)
  simp only [append] at hok
  split at hok
  next => cases hok
  next e rest _ =>
    split at hok
    next =>
      cases hok
      exact Quiet.effect hp (quiet_of_eq rfl rfl rfl) (hsamples rest) hp.queue
    next =>
      split_ifs at hok
      all_goals cases hok
      · exact Quiet.effect hp (quiet_of_eq rfl rfl rfl) (hsamples rest) hp.queue
      all_goals exact Quiet.effect hp ⟨rfl, fun _ he => mem_append_left _ he, fun _ => rfl,
        fun _ => rfl, fun _ => rfl⟩ (hsamples rest) hp.queue

theorem writeSeries_effect (hp : p.Consistent walNum) {n : ℕ} (hok : p.writeSeries n = .ok p') :
    Quiet p p' ∧ p'.Consistent walNum := by
  unfold writeSeries at hok
  split at hok
  next =>
    cases hok
    exact Quiet.effect hp (quiet_of_eq rfl rfl rfl) hp.samples hp.queue
  next => cases hok

def InLogs (p : PWal) (e : LogEntry) : Prop :=
  ∃ i, Holds (p.wal i).files e

theorem inLogs_update {i : ℕ} {w : SampleWal} (hwal : p'.wal = update p.wal i w) :
    p'.InLogs e ↔ Holds w.files e ∨ ∃ j, j ≠ i ∧ Holds (p.wal j).files e := by
  constructor
  · rintro ⟨j, hj⟩
    rw [hwal] at hj
    by_cases hji : j = i
    · rw [hji, update_self] at hj
      exact Or.inl hj
    · rw [update_of_ne hji] at hj
      exact Or.inr ⟨j, hji, hj⟩
  · rintro (hi | ⟨j, hji, hj⟩)
    · refine ⟨i, ?_⟩
      rwa [hwal, update_self]
    · refine ⟨j, ?_⟩
      rwa [hwal, update_of_ne hji]

theorem inLogs_iff (p : PWal) (i : ℕ) :
    p.InLogs e ↔ Holds (p.wal i).files e ∨ ∃ j, j ≠ i ∧ Holds (p.wal j).files e :=
  inLogs_update (update_eq_self i p.wal).symm

theorem forall_wal_update {i : ℕ} {w : SampleWal} (hwal : p'.wal = update p.wal i w)
    {P : ℕ → SampleWal → Prop} (hp : ∀ j, P j (p.wal j)) (hw : P i w) : ∀ j, P j (p'.wal j) := by
  intro j
  rw [hwal]
  by_cases hj : j = i
  · subst hj
    rwa [update_self]
  · rw [update_of_ne hj]
    exact hp j

section WriteSamples

variable {walNum : ℕ} {p p' : PWal} {i n : ℕ} {extend : Bool}
  (hok : p.writeSamples walNum i n extend = .ok p')

include hok

theorem writeSamples_eq_ok (hopen : (p.wal i).Open) :
    ∃ w : SampleWal, p'.wal = update p.wal i w ∧ ((p.wal i).Batched → w.Batched) ∧
      w.queue = (p.wal i).queue.drop n ∧ (p.wal i).curLogSeq ≤ w.curLogSeq ∧ w.Open ∧
      (∀ m e, InFile w.files m e ↔ InFile (p.wal i).files m e ∨
        ((p.wal i).linked = true ∧ m = (p.wal i).curLogSeq ∧ e ∈ (p.wal i).queue.take n)) ∧
      p'.logged = p.logged ++ (p.wal i).queue.take n ∧ p'.handed = p.handed ∧
      p'.appender = p.appender := by
  simp only [writeSamples] at hok
  split at hok
  next hn =>
    cases hok
    set w₀ : SampleWal := { p.wal i with queue := (p.wal i).queue.drop n }
    set w₁ := w₀.addRecord ((p.wal i).queue.take n) with hw₁
    have hopen₁ : w₁.Open := SampleWal.Open.addRecord (w := w₀) hopen _
    have hqueue₁ : w₁.queue = (p.wal i).queue.drop n := by
      rw [hw₁, SampleWal.addRecord]
      split <;> rfl
    have hcur₁ : w₁.curLogSeq = (p.wal i).curLogSeq := by
      rw [hw₁, SampleWal.addRecord]
      split <;> rfl
    have hfiles₁ : ∀ m e, InFile w₁.files m e ↔ InFile (p.wal i).files m e ∨
        ((p.wal i).linked = true ∧ m = (p.wal i).curLogSeq ∧ e ∈ (p.wal i).queue.take n) :=
      fun m e => SampleWal.inFile_addRecord (w := w₀) hopen
    refine ⟨_, rfl, fun hbatched => ?_, ?_, ?_, ?_, fun m e => ?_, rfl, rfl, rfl⟩
    · have hlen : ((p.wal i).queue.take n).length ≤ itemNum :=
        (length_take_le _ _).trans hn.2.2.1
      have hbatched₁ : w₁.Batched := SampleWal.Batched.addRecord (w := w₀) hbatched hlen
      split
      · exact hbatched₁.extendLog
      · exact hbatched₁
    · split
      · exact hqueue₁
      · exact hqueue₁
    · split
      · exact hcur₁.symm.le.trans (Nat.le_succ _)
      · exact hcur₁.symm.le
    · split
      · exact SampleWal.open_extendLog w₁
      · exact hopen₁
    · split
      · rw [SampleWal.inFile_extendLog, hfiles₁]
      · exact hfiles₁ m e
  next => cases hok

theorem inLogs_writeSamples (hopen : (p.wal i).Open) {e : LogEntry} :
    p'.InLogs e ↔ p.InLogs e ∨
      ((p.wal i).linked = true ∧ e ∈ (p.wal i).queue.take n) := by
  obtain ⟨w, hwal, -, -, -, -, hfiles, -⟩ := writeSamples_eq_ok hok hopen
  have hholds : Holds w.files e ↔ Holds (p.wal i).files e ∨
      ((p.wal i).linked = true ∧ e ∈ (p.wal i).queue.take n) := by
    simp only [Holds, hfiles]
    constructor
    · rintro ⟨m, hm | ⟨hlinked, -, he⟩⟩
      · exact Or.inl ⟨m, hm⟩
      · exact Or.inr ⟨hlinked, he⟩
    · rintro (⟨m, hm⟩ | ⟨hlinked, he⟩)
      · exact ⟨m, Or.inl hm⟩
      · exact ⟨_, Or.inr ⟨hlinked, rfl, he⟩⟩
  rw [inLogs_update hwal, inLogs_iff p i, hholds, or_right_comm]

theorem writeSamples_consistent (hp : p.Consistent walNum) : p'.Consistent walNum := by
  obtain ⟨w, hwal, hbatched, hqueue, hcur, hopen, hfiles, hlogged, -, happ⟩ :=
    writeSamples_eq_ok hok (hp.isOpen i)
  refine ⟨?_, forall_wal_update (P := fun _ w => w.Open) hwal hp.isOpen hopen,
    happ ▸ hp.samples, ?_, fun e he => ?_,
    forall_wal_update (P := fun _ w => w.Batched) hwal hp.batched (hbatched (hp.batched i))⟩
  · rw [hlogged]
    refine forall_wal_update (P := fun j w => ∀ m e, InFile w.files m e →
      e ∈ p.logged ++ (p.wal i).queue.take n ∧ e.key.2 % walNum = j ∧ m ≤ w.curLogSeq) hwal
      (fun j m e he => ?_) fun m e he => ?_
    · obtain ⟨hmem, hmid, hle⟩ := hp.files j m e he
      exact ⟨mem_append_left _ hmem, hmid, hle⟩
    · rcases (hfiles m e).mp he with hold | ⟨-, rfl, hnew⟩
      · obtain ⟨hmem, hmid, hle⟩ := hp.files i m e hold
        exact ⟨mem_append_left _ hmem, hmid, hle.trans hcur⟩
      · exact ⟨mem_append_right _ hnew, (hp.queue i e (mem_of_mem_take hnew)).2, hcur⟩
  · exact forall_wal_update
      (P := fun j w => ∀ e ∈ w.queue, e.sample.txn = 0 ∧ e.key.2 % walNum = j) hwal hp.queue
      fun e he => hp.queue i e (mem_of_mem_drop (hqueue ▸ he))
  · rw [hlogged] at he
    rcases mem_append.mp he with he | he
    · exact hp.logged e he
    · exact (hp.queue i e (mem_of_mem_take he)).1

theorem writeSamples_kept_iff (hp : p.Consistent walNum) (hkept : p.Kept) :
    p'.Kept ↔ p.Allowed (.writeSamples i n extend) := by
  obtain ⟨w, -, -, -, -, -, -, hlogged, hhanded, -⟩ := writeSamples_eq_ok hok (hp.isOpen i)
  have hlogs := fun e => inLogs_writeSamples (e := e) hok (hp.isOpen i)
  constructor
  · intro hkept'
    by_cases hlinked : (p.wal i).linked = true
    · exact Or.inl hlinked
    · refine Or.inr fun e he => or_iff_not_imp_left.mpr fun hnot => ?_
      have hin := hkept' e (hlogged ▸ mem_append_right _ he) (hhanded ▸ hnot)
      exact ((hlogs e).mp hin).resolve_right fun h => hlinked h.1
  · intro hallowed e he hnot
    rw [hlogged] at he
    rw [hhanded] at hnot
    rcases mem_append.mp he with he | he
    · exact (hlogs e).mpr (Or.inl (hkept e he hnot))
    · rcases hallowed with hlinked | hother
      · exact (hlogs e).mpr (Or.inr ⟨hlinked, he⟩)
      · exact (hlogs e).mpr (Or.inl ((hother e he).resolve_left hnot))

end WriteSamples

section Clean

variable {walNum : ℕ} {p p' : PWal} {i : ℕ} {slot : Word → BitVec 16 → Word}
  (hok : p.clean walNum i slot = .ok p')

include hok

theorem clean_eq_ok : ∃ w : SampleWal, p'.wal = update p.wal i w ∧
    w.queue = (p.wal i).queue ∧
    w.files = pass (reserves LogEntry.sample (p.slotTxn slot)) (p.wal i).files
      (List.range (lastFile (p.wal i).curLogSeq + 1)) ∧
    w.curLogSeq = (p.wal i).curLogSeq ∧
    w.linked = ((p.wal i).linked &&
      decide (lastFile (p.wal i).curLogSeq < (p.wal i).curLogSeq)) ∧
    p'.logged = p.logged ∧ p'.handed = p.handed ∧ p'.appender = p.appender := by
  simp only [clean] at hok
  split_ifs at hok with hnum hread
  cases hok
  refine ⟨_, rfl, rfl, ?_, rfl, rfl, rfl, rfl, rfl⟩
  have hall : cleanedFiles LogEntry.sample (p.slotTxn slot) (p.wal i).files
      (p.wal i).curLogSeq = List.range (lastFile (p.wal i).curLogSeq + 1) :=
    takeWhile_eq_self_iff.mpr (all_eq_true.mp hread)
  rw [cleanSampleLog, hall]

theorem inFile_clean (hp : p.Consistent walNum) {j m : ℕ} {e : LogEntry} :
    InFile (p'.wal j).files m e ↔ InFile (p.wal j).files m e ∧ ¬p.Cleaned i j m := by
  obtain ⟨w, hwal, -, hfiles, -⟩ := clean_eq_ok hok
  rw [hwal]
  by_cases hj : j = i
  · subst hj
    rw [update_self, hfiles, inFile_pass]
    refine and_congr_right fun hin => ?_
    have htxn := hp.logged e (hp.files j m e hin).1
    have hdrop : reserves LogEntry.sample (p.slotTxn slot) e = false := by
      rw [reserves, htxn]
      cases p.slotTxn slot e.sample.sgid e.sample.mid with
      | none => rfl
      | some txn => simp [BitVec.ult]
    rw [hdrop, mem_range, Nat.lt_succ_iff, Cleaned]
    exact ⟨fun h hc => Bool.false_ne_true (h hc.2), fun h hm => absurd ⟨rfl, hm⟩ h⟩
  · rw [update_of_ne hj]
    exact (and_iff_left fun h => hj h.1).symm

theorem clean_consistent (hp : p.Consistent walNum) : p'.Consistent walNum := by
  obtain ⟨w, hwal, hqueue, hfiles, hcur, hlinked, hlogged, -, happ⟩ := clean_eq_ok hok
  have hopen : w.Open := by
    intro hw
    rw [hlinked, Bool.and_eq_true, decide_eq_true_iff] at hw
    rw [hfiles, hcur, pass_of_notMem fun h => absurd (mem_range.mp h) (by omega)]
    exact hp.isOpen i hw.1
  have hbatched : w.Batched := by
    rw [SampleWal.Batched, hfiles]
    exact forall_record_pass (P := fun record => record.length ≤ itemNum)
      (fun record => (length_filter_le _ record).trans) (hp.batched i) _
  refine ⟨fun j m e he => ?_, forall_wal_update (P := fun _ w => w.Open) hwal hp.isOpen hopen,
    happ ▸ hp.samples, ?_, hlogged ▸ hp.logged,
    forall_wal_update (P := fun _ w => w.Batched) hwal hp.batched hbatched⟩
  · obtain ⟨hmem, hmid, hle⟩ := hp.files j m e ((inFile_clean hok hp).mp he).1
    have hcurs : (p'.wal j).curLogSeq = (p.wal j).curLogSeq :=
      forall_wal_update (P := fun j w => w.curLogSeq = (p.wal j).curLogSeq) hwal (fun _ => rfl)
        hcur j
    rw [hlogged, hcurs]
    exact ⟨hmem, hmid, hle⟩
  · exact forall_wal_update
      (P := fun j w => ∀ e ∈ w.queue, e.sample.txn = 0 ∧ e.key.2 % walNum = j) hwal hp.queue
      (hqueue ▸ hp.queue i)

theorem clean_kept_iff (hp : p.Consistent walNum) (hkept : p.Kept) :
    p'.Kept ↔ p.Allowed (.clean i slot) := by
  obtain ⟨w, -, -, -, -, -, hlogged, hhanded, -⟩ := clean_eq_ok hok
  constructor
  · intro hkept' n e hcleaned hin
    refine or_iff_not_imp_left.mpr fun hnot => ?_
    have he : e ∈ p'.logged := hlogged ▸ (hp.files i n e hin).1
    obtain ⟨j, m, hm⟩ := hkept' e he (hhanded ▸ hnot)
    exact ⟨j, m, (inFile_clean hok hp).mp hm⟩
  · intro hallowed e he hnot
    rw [hlogged] at he
    rw [hhanded] at hnot
    obtain ⟨j, m, hm⟩ := hkept e he hnot
    by_cases hcleaned : p.Cleaned i j m
    · have hin : InFile (p.wal i).files m e := hcleaned.1 ▸ hm
      obtain ⟨k, n, hkn⟩ := (hallowed m e ⟨rfl, hcleaned.2⟩ hin).resolve_left hnot
      exact ⟨k, n, (inFile_clean hok hp).mpr hkn⟩
    · exact ⟨j, m, (inFile_clean hok hp).mpr ⟨hm, hcleaned⟩⟩

end Clean

theorem step_effect (hp : p.Consistent walNum) {op : Op} (hok : p.step walNum op = .ok p') :
    p'.Consistent walNum ∧ (p.Kept → (p'.Kept ↔ p.Allowed op)) := by
  have hquiet : p.Allowed op → Quiet p p' ∧ p'.Consistent walNum →
      p'.Consistent walNum ∧ (p.Kept → (p'.Kept ↔ p.Allowed op)) := fun hallowed h =>
    ⟨h.2, fun hkept => iff_of_true (h.1.kept hkept) hallowed⟩
  cases op with
  | add a lset t v => exact hquiet trivial (add_effect hp hok)
  | addFast a sgid mid t v =>
    cases hok
    exact hquiet trivial (addFast_effect hp a sgid mid t v)
  | log a => exact hquiet trivial (log_effect hp hok)
  | append a => exact hquiet trivial (append_effect hp hok)
  | writeSeries n => exact hquiet trivial (writeSeries_effect hp hok)
  | writeSamples i n extend =>
    exact ⟨writeSamples_consistent hok hp, writeSamples_kept_iff hok hp⟩
  | clean i slot => exact ⟨clean_consistent hok hp, clean_kept_iff hok hp⟩

theorem consistent_of_reaches {allowed : PWal → Op → Prop}
    (hreach : Run.Reaches allowed (step walNum) init p) : p.Consistent walNum :=
  hreach.invariant (consistent_init walNum) fun _ _ _ hp _ hok => (step_effect hp hok).1

/-- What is read from the records of a log file are samples that were logged, of the writer of
the file; at most their values are others. -/
def ReadsLogged (walNum : ℕ) (p : PWal) : Prop :=
  ∀ i n records, (p.wal i).files n = some records → ∀ record ∈ records,
    Forall₂ (fun e s => e ∈ p.logged ∧ e.key.2 % walNum = i ∧
      LogReader.SameButValue e.sample s ∧ s.txn = 0) record
        (LogReader.readBatch (record.map LogEntry.sample))

theorem Consistent.readsLogged (hp : p.Consistent walNum) : p.ReadsLogged walNum := by
  intro i n records hfile record hrecord
  have hlen : (record.map LogEntry.sample).length < 2 ^ 32 := by
    rw [length_map]
    exact (hp.batched i n records hfile record hrecord).trans_lt (by decide)
  have hsame := forall₂_map_left_iff.mp (LogReader.forall₂_decoded (record.map LogEntry.sample))
  rw [LogReader.readBatch_eq hlen]
  rw [forall₂_iff_zip] at hsame ⊢
  refine ⟨hsame.1, fun {e s} hmem => ?_⟩
  obtain ⟨hlogged, hmid, -⟩ := hp.files i n e ⟨records, hfile, record, hrecord,
    (of_mem_zip hmem).1⟩
  have hsample := hsame.2 hmem
  refine ⟨hlogged, hmid, hsample, ?_⟩
  rw [← hp.logged e hlogged, ← hsample]

/-- In every reached state a log file holds samples of its writer only, and so does what is
read from it. -/
theorem pWal_consistent (h : Run.Reaches (fun _ _ => True) (step walNum) init p) :
    p.Consistent walNum ∧ p.ReadsLogged walNum :=
  ⟨consistent_of_reaches h, (consistent_of_reaches h).readsLogged⟩

/-- As long as every step is allowed, every logged sample that was not yet handed to the
slab store stands in a log file; the first step that is not allowed loses one. -/
theorem cleanSampleLog_keeps_iff (walNum : ℕ) {p : PWal}
    (hreach : Run.Reaches Allowed (step walNum) init p) :
    p.Kept ∧ ∀ op p', p.step walNum op = .ok p' → (p'.Kept ↔ p.Allowed op) := by
  have hinv : p.Consistent walNum ∧ p.Kept :=
    hreach.invariant (P := fun p => p.Consistent walNum ∧ p.Kept)
      ⟨consistent_init walNum, kept_init⟩ fun p op p' hp hallowed hok =>
        have h := step_effect hp.1 hok
        ⟨h.1, (h.2 hp.2).mpr hallowed⟩
  exact ⟨hinv.2, fun op p' hok => (step_effect hinv.1 hok).2 hinv.2⟩

def overflowing : List (Word × Word) :=
  (List.range 15).map fun i =>
    (BitVec.ofNat 64 (i ^ 3 * 1000003), BitVec.ofNat 64 (0x9E3779B97F4A7C15 * (i + 1) * (i + 7)))

def addAll : List Op :=
  overflowing.map (fun s => .add 0 loggedUp.lset s.1 s.2) ++ [.log 0]

def Checked (p : PWal) : Op → Prop
  | .writeSamples i _ _ => (p.wal i).linked = true
  | .clean i _ => ∀ n ∈ List.range (lastFile (p.wal i).curLogSeq + 1),
      ∀ record ∈ ((p.wal i).files n).getD [], ∀ e ∈ record, e ∈ p.handed
  | _ => True

instance (p : PWal) (op : Op) : Decidable (p.Checked op) := by
  cases op <;> unfold Checked <;> infer_instance

theorem Checked.allowed {op : Op} (h : p.Checked op) : p.Allowed op := by
  cases op with
  | writeSamples i n extend => exact Or.inl h
  | clean i slot =>
    intro n e hcleaned hin
    obtain ⟨records, hfile, record, hrecord, he⟩ := hin
    refine Or.inl (h n (mem_range.mpr (Nat.lt_succ_of_le hcleaned.2)) record ?_ e he)
    rwa [hfile]
  | _ => trivial

def lastEntry : LogEntry := ⟨14, ⟨1, 1, 2744008232, 0x9E3779B97F4A7C15 * 315, 0⟩⟩

def keepingRun : List Op :=
  addAll ++ [.writeSamples 1 14 true, .writeSamples 1 1 false] ++
    List.replicate 15 (.append 0) ++ [.clean 1 fun _ _ => 0]

theorem cleanSampleLog_keeps_keepingRun :
    ∃ p, Run.Reaches Allowed (step 5) init p ∧ (p.wal 1).files 0 = none ∧
      lastEntry ∈ p.logged ∧ p.chunk (1, 1) = [lastEntry] ∧ p.Kept := by
  have hrun : (Run.exec Checked (step 5) init keepingRun).map (fun p =>
      ((p.wal 1).files 0, decide (lastEntry ∈ p.logged), p.chunk (1, 1))) =
        some (none, true, [lastEntry]) := by
    decide +kernel
  obtain ⟨p, hp, hstate⟩ := Option.map_eq_some_iff.mp hrun
  obtain ⟨hfile, hstate⟩ := Prod.mk.inj hstate
  obtain ⟨hlogged, hchunk⟩ := Prod.mk.inj hstate
  have hreach := (Run.reaches_of_exec hp).mono fun _ _ => Checked.allowed
  exact ⟨p, hreach, hfile, of_decide_eq_true hlogged, hchunk,
    (cleanSampleLog_keeps_iff 5 hreach).1⟩

/-- After a commit, two records, all appends and a cleaning, the second file is left. -/
theorem pWal_consistent_keepingRun :
    ∃ p : PWal, (p.wal 1).files 0 = none ∧ (p.wal 1).files 1 = some [[lastEntry]] ∧
      p.Consistent 5 ∧ p.ReadsLogged 5 := by
  have hrun : (Run.exec (fun _ _ => True) (step 5) init keepingRun).map (fun p =>
      ((p.wal 1).files 0, (p.wal 1).files 1)) = some (none, some [[lastEntry]]) := by
    decide +kernel
  obtain ⟨p, hp, hstate⟩ := Option.map_eq_some_iff.mp hrun
  obtain ⟨hfirst, hsecond⟩ := Prod.mk.inj hstate
  exact ⟨p, hfirst, hsecond, pWal_consistent (Run.reaches_of_exec hp)⟩

def droppingRun : List Op :=
  addAll ++ [.writeSamples 1 15 false] ++ List.replicate 15 (.append 0) ++
    [.clean 1 fun _ _ => 0]

theorem cleanSampleLog_drops :
    ∃ p, Run.exec (fun _ _ => True) (step 5) init droppingRun = some p ∧
      lastEntry ∈ p.logged ∧ lastEntry ∉ p.handed ∧ ¬p.InLogs lastEntry := by
  have hrun : (Run.exec (fun _ _ => True) (step 5) init droppingRun).map (fun p =>
      ((p.wal 1).files 0, (p.wal 1).curLogSeq, decide (lastEntry ∈ p.logged),
        decide (lastEntry ∉ p.handed))) = some (none, 0, true, true) := by
    decide +kernel
  obtain ⟨p, hp, hstate⟩ := Option.map_eq_some_iff.mp hrun
  obtain ⟨hfile, hstate⟩ := Prod.mk.inj hstate
  obtain ⟨hcur, hstate⟩ := Prod.mk.inj hstate
  obtain ⟨hlogged, hhanded⟩ := Prod.mk.inj hstate
  refine ⟨p, hp, of_decide_eq_true hlogged, of_decide_eq_true hhanded, ?_⟩
  rintro ⟨i, n, hin⟩
  -- the entry could only be in the first file of its own log
  obtain ⟨-, rfl, hle⟩ := (consistent_of_reaches (Run.reaches_of_exec hp)).files i n lastEntry hin
  obtain ⟨records, hrecords, -⟩ := hin
  have hn : n = 0 := Nat.le_zero.mp (hle.trans_eq hcur)
  rw [hn] at hrecords
  cases hfile.symm.trans hrecords

end PWal

end PromTCS
