import PromTCS.Lsm.CompactionTree

/-!
# Compactions that no partition is set up for

`DoCompactionWorkTree` looks for the output files of the partition of a key when the
partition has just changed, that is before it opens a file for it: the index it gets is -1.
The length of the partitions is the first of `output_time_intervals_`, which is empty in a
compaction that `CompactRange` made.
-/

namespace PromTCS

open List OutputPartitions Output

/-- What `DoCompactionWorkTree` is given, with the first of `output_time_intervals_`. -/
structure CompactionTask where
  inputs : List TableFile
  timeInterval : Option Word

namespace CompactionTask

def run (fileSize : List Entry → ℕ) (maxOutputFileSize next : ℕ) (c : CompactionTask) :
    Option (List TableFile × ℕ) := do
  let interval ← c.timeInterval
  doCompactionWorkTree fileSize maxOutputFileSize next interval c.inputs

/-- The compaction that `CompactRange` makes of some inputs. -/
def manual (inputs : List TableFile) : CompactionTask :=
  ⟨inputs, none⟩

def Safe (c : CompactionTask) : Prop :=
  ∀ fileSize maxOutputFileSize next, ∃ files next',
    c.run fileSize maxOutputFileSize next = some (files, next') ∧
      (files.flatMap TableFile.entries).Perm (c.inputs.flatMap TableFile.entries)

/-- All keys lie in one partition. -/
def InOnePartition (c : CompactionTask) : Prop :=
  ∃ b, ∀ f ∈ c.inputs, ∀ e ∈ f.entries, LiesIn partitionLength b e.time

end CompactionTask

namespace CompactionLoop

variable {fileSize : List Entry → ℕ} {maxOutputFileSize next : ℕ} {interval b t : Word}
  {files : List TableFile} {f : TableFile} {d e : Entry} {s : CompactionLoop}

theorem liesIn_of_step_init
    (h : step fileSize maxOutputFileSize interval (init next) e = some s) :
    LiesIn interval (partitionOf interval e.time) e.time := by
  have hunchanged : ¬(init next).Changed interval e.ikey.user := by
    simp [Changed, init]
  by_contra hlies
  have hholds : OutputPartition.holds
      ⟨[Output.empty next (partitionOf interval e.time) interval], true, false⟩ e.time = false :=
    decide_eq_false fun hin => hlies ⟨rfl, hin.1, hin.2⟩
  have hopen : openFile [] next interval e.time = none := by
    simp [openFile, OutputPartitions.partitionFileOpened, OutputPartitions.insert,
      OutputPartitions.getPartitionIdx, hholds]
  rw [step, closeFile, if_neg hunchanged] at h
  simp [init, hopen] at h

/-- The partition of the loop holds the times from its boundary on. -/
theorem holds_outputs (hfiles : ∀ g ∈ files ++ [f], g.timeBoundary = b ∧ g.timeInterval = interval)
    (last : Bool) (os : List Output) (opened smallestSet : Bool) (t : Word) :
    OutputPartition.holds
      ⟨files.map (ofFile false) ++ [ofFile last f] ++ os, opened, smallestSet⟩ t =
      decide (b.toInt ≤ t.toInt ∧ t.toInt < (b + interval).toInt) := by
  cases files with
  | nil =>
    obtain ⟨hb, hi⟩ := hfiles f mem_cons_self
    rw [← hb, ← hi]
    rfl
  | cons g files =>
    obtain ⟨hb, hi⟩ := hfiles g mem_cons_self
    rw [← hb, ← hi]
    rfl

section

variable (hb : b.toNat % 7200000 = 0)
include hb

theorem lt_partitionOf (hle : b.toInt ≤ t.toInt)
    (hlt : t.toInt < (b + partitionLength).toInt) (hne : partitionOf partitionLength t ≠ b) :
    b.toInt < (partitionOf partitionLength t).toInt := by
  have hnat : (partitionOf partitionLength t).toNat ≠ b.toNat := fun h =>
    hne (BitVec.eq_of_toNat_eq h)
  have hpart := toNat_partitionOf partitionLength t
  have hend := BitVec.toNat_add b partitionLength
  rw [show partitionLength.toNat = 7200000 from rfl] at hpart hend
  simp only [BitVec.toInt_eq_toNat_cond, hend] at hle hlt ⊢
  split_ifs at hle hlt ⊢ <;> omega

theorem changed_working
    (hne : partitionOf partitionLength e.time ≠ b) :
    (working b next files f d).Changed partitionLength e.ikey.user := by
  refine Or.inr ⟨Ne.symm hne, fun hmax => ?_⟩
  rw [show b = maxBoundary from hmax] at hb
  exact absurd hb (by decide)

/-- A key outside of the partition does not find it. -/
theorem step_working_of_not_holds
    (hfiles : ∀ g ∈ files ++ [f], g.timeBoundary = b ∧ g.timeInterval = partitionLength)
    (hout : ¬(b.toInt ≤ e.time.toInt ∧ e.time.toInt < (b + partitionLength).toInt)) :
    step fileSize maxOutputFileSize partitionLength (working b next files f d) e = none := by
  have hholds : ∀ os opened smallestSet, OutputPartition.holds ⟨files.map (ofFile false) ++
      [ofFile true f] ++ os, opened, smallestSet⟩ e.time = false := fun os _ _ => by
    rw [holds_outputs hfiles]
    exact decide_eq_false hout
  have hfirst := hholds [] true true
  rw [append_nil] at hfirst
  by_cases hchanged : (working b next files f d).Changed partitionLength e.ikey.user
  · have hclose : (working b next files f d).closeFile fileSize maxOutputFileSize partitionLength
        e = none := by
      rw [closeFile, if_pos hchanged]
      simp [working, closeIfFull, back,
        getPartitionIdx, hfirst]
    rw [step, hclose]
    rfl
  · -- then the partition is the same, and the file that is opened does not help
    have heq : partitionOf partitionLength e.time = b :=
      not_not.1 fun hne => hchanged (changed_working hb hne)
    have hboundary : ∀ o ∈ files.map (ofFile false) ++ [ofFile true f],
        o.timeBoundary = (Output.empty next b partitionLength).timeBoundary := by
      rw [forall_mem_append, forall_mem_singleton] at hfiles ⊢
      rw [forall_mem_map]
      exact ⟨fun g hg => (hfiles.1 g hg).1, hfiles.2.1⟩
    have hnew := hholds [Output.empty next b partitionLength] true false
    rw [append_assoc, singleton_append] at hnew
    have hopen : openFile (working b next files f d).partitions next partitionLength e.time =
        none := by
      simp [openFile, working, partitionFileOpened, hfirst, heq, hnew,
        insert_single (by simp) hboundary, getPartitionIdx]
    rw [step, closeFile, if_neg hchanged, Option.bind_eq_bind, Option.bind_some]
    rw [show (working b next files f d).next = next from rfl, hopen]
    rfl

/-- A time that two partitions hold is looked up in the one whose file was closed. -/
theorem step_working_of_other
    (hfiles : ∀ g ∈ files ++ [f], g.timeBoundary = b ∧ g.timeInterval = partitionLength)
    (hin : b.toInt ≤ e.time.toInt ∧ e.time.toInt < (b + partitionLength).toInt)
    (hne : partitionOf partitionLength e.time ≠ b) :
    step fileSize 0 partitionLength (working b next files f d) e = none := by
  have hlt := lt_partitionOf hb hin.1 hin.2 hne
  have hholds : ∀ last opened smallestSet, OutputPartition.holds
      ⟨files.map (ofFile false) ++ [ofFile last f], opened, smallestSet⟩ e.time =
      true := fun last opened smallestSet => by
    have hall := holds_outputs hfiles last [] opened smallestSet e.time
    rw [append_nil] at hall
    rw [hall]
    exact decide_eq_true hin
  have hclose : (working b next files f d).closeFile fileSize 0 partitionLength e =
      some [⟨files.map (ofFile false) ++ [ofFile false f], false, false⟩] := by
    rw [closeFile, if_pos (changed_working hb hne)]
    exact OutputPartitions.closeIfFull_single (hholds true true true) rfl (Nat.zero_le _)
  have hclosed := hholds false false false
  generalize hos : files.map (ofFile false) ++ [ofFile false f] = os
    at hclose hclosed
  have hlast : os.getLast? = some (ofFile false f) := by
    rw [← hos, getLast?_concat]
  obtain ⟨o, os', rfl, ho⟩ : ∃ o os', os = o :: os' ∧ o.timeBoundary = b := by
    rw [← hos]
    cases files with
    | nil => exact ⟨_, _, rfl, (hfiles f mem_cons_self).1⟩
    | cons g files => exact ⟨_, _, rfl, (hfiles g mem_cons_self).1⟩
  -- the new partition comes behind, and the search ends at the old one
  have hopen : openFile [⟨o :: os', false, false⟩] next partitionLength e.time =
      some ([⟨o :: os', false, false⟩, ⟨[Output.empty next (partitionOf partitionLength e.time)
        partitionLength], true, false⟩], next + 1) := by
    simp [openFile, OutputPartitions.partitionFileOpened, OutputPartitions.insert,
      OutputPartitions.getPartitionIdx, Output.empty, ho, hlt.not_ge, hclosed,
      findIdx?_cons]
  have hadd : ∀ ps, OutputPartitions.addEntry (⟨o :: os', false, false⟩ :: ps) e = none := by
    intro ps
    simp [OutputPartitions.addEntry, OutputPartitions.back, OutputPartitions.getPartitionIdx,
      hclosed, hlast, ofFile, findIdx?_cons]
  rw [step, hclose, Option.bind_eq_bind, Option.bind_some]
  rw [show (working b next files f d).next = next from rfl, hopen]
  simp only [Option.bind_eq_bind, Option.bind_some]
  rw [hadd]
  rfl

theorem forall_liesIn {l : List Entry}
    (hfiles : ∀ g ∈ files ++ [f], g.timeBoundary = b ∧ g.timeInterval = partitionLength)
    (h : l.foldlM (step fileSize 0 partitionLength) (working b next files f d) = some s) :
    ∀ e ∈ l, LiesIn partitionLength b e.time := by
  induction l generalizing next files f d with
  | nil => exact fun _ he => absurd he not_mem_nil
  | cons e l ih =>
    rw [foldlM_cons] at h
    have he : LiesIn partitionLength b e.time := by
      by_contra hlies
      have hnone : step fileSize 0 partitionLength (working b next files f d) e = none := by
        by_cases hin : b.toInt ≤ e.time.toInt ∧
            e.time.toInt < (b + partitionLength).toInt
        · exact step_working_of_other hb hfiles hin fun heq => hlies ⟨heq, hin.1, hin.2⟩
        · exact step_working_of_not_holds hb hfiles hin
      rw [hnone] at h
      exact nomatch h
    refine forall_mem_cons.2 ⟨he, ?_⟩
    rcases step_working fileSize 0 next d hfiles he with hstep | ⟨-, hstep⟩
    · rw [hstep] at h
      rw [forall_mem_append, forall_mem_singleton] at hfiles
      have hadd : (f.add e).timeBoundary = b ∧ (f.add e).timeInterval = partitionLength :=
        hfiles.2
      exact ih (forall_mem_append.2 ⟨hfiles.1, forall_mem_singleton.2 hadd⟩) h
    · rw [hstep] at h
      exact ih (forall_mem_append.2 ⟨hfiles, forall_mem_singleton.2
        ⟨he.partitionOf_eq, rfl⟩⟩) h

end

theorem exists_liesIn {l : List Entry}
    (h : l.foldlM (step fileSize 0 partitionLength) (init next) = some s) :
    ∃ b, ∀ e ∈ l, LiesIn partitionLength b e.time := by
  cases l with
  | nil => exact ⟨0, fun _ he => absurd he not_mem_nil⟩
  | cons e l =>
    rw [foldlM_cons] at h
    obtain ⟨s₁, hs₁, hrest⟩ := Option.bind_eq_some_iff.1 h
    have he := liesIn_of_step_init hs₁
    rw [step_init fileSize 0 next he] at hs₁
    cases hs₁
    have hb : (partitionOf partitionLength e.time).toNat % 7200000 = 0 := by
      rw [toNat_partitionOf]
      exact Nat.mul_mod_left _ _
    exact ⟨_, forall_mem_cons.2 ⟨he, forall_liesIn hb
      (forall_mem_singleton.2 ⟨rfl, rfl⟩) hrest⟩⟩

end CompactionLoop

/-- A compaction is safe if and only if it was picked and its keys lie in one partition. -/
theorem compactionTask_safe_iff (c : CompactionTask)
    (hsorted : ∀ f ∈ c.inputs, Merge.Sorted Entry.ikey f.entries)
    (hinterval : ∀ interval ∈ c.timeInterval, interval = partitionLength) :
    c.Safe ↔ c.timeInterval.isSome ∧ c.InOnePartition := by
  constructor
  · intro hsafe
    obtain ⟨files, next', hrun, -⟩ := hsafe (fun _ => 0) 0 0
    obtain ⟨interval, hsome, hwork⟩ := Option.bind_eq_some_iff.1 hrun
    rw [hinterval interval hsome] at hwork
    obtain ⟨s, hs, -⟩ := Option.bind_eq_some_iff.1 hwork
    obtain ⟨b, hb⟩ := CompactionLoop.exists_liesIn hs
    exact ⟨Option.isSome_of_eq_some hsome, b, fun f hf e he =>
      hb e (mem_mergeAll_iff.2 ⟨f, hf, he⟩)⟩
  · rintro ⟨hsome, b, hb⟩ fileSize maxOutputFileSize next
    obtain ⟨interval, hinterval'⟩ := Option.isSome_iff_exists.1 hsome
    have hlen := hinterval interval hinterval'
    obtain ⟨files, hrun, hdone⟩ := exists_compacted fileSize maxOutputFileSize next hsorted hb
    refine ⟨files, next + files.length, ?_, ?_⟩
    · rw [CompactionTask.run, hinterval', hlen]
      exact hrun
    · rw [hdone.entries_eq, flatMap_def]
      exact Merge.perm_mergeAll _

def timeFile (number : ℕ) (t : Word) : TableFile :=
  TableFile.start number partitionLength ⟨⟨⟨1, 1, t⟩, 1⟩, []⟩

theorem compactionTask_safe_single :
    (⟨[timeFile 1 0, timeFile 2 7199999], some partitionLength⟩ : CompactionTask).Safe :=
  (compactionTask_safe_iff _ (by decide) fun _ h => (Option.some.inj h).symm).2
    ⟨rfl, 0, by decide⟩

/-- Neither keys of two partitions nor a manual compaction of a single file are safe. -/
theorem compactionTask_not_safe :
    ¬(⟨[timeFile 1 0, timeFile 2 7200000], some partitionLength⟩ : CompactionTask).Safe ∧
      ¬(CompactionTask.manual [timeFile 1 0]).Safe := by
  constructor
  · intro hsafe
    obtain ⟨files, next', hrun, -⟩ := hsafe (fun _ => 0) 1 3
    have hnone : CompactionTask.run (fun _ => 0) 1 3
        ⟨[timeFile 1 0, timeFile 2 7200000], some partitionLength⟩ = none := by decide +kernel
    rw [hnone] at hrun
    exact nomatch hrun
  · intro hsafe
    obtain ⟨files, next', hrun, -⟩ := hsafe (fun _ => 0) 1 3
    exact nomatch hrun

end PromTCS
