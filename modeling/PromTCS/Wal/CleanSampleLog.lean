import PromTCS.Lib.RewriteFiles
import PromTCS.Wal.TreeRecords

/-!
# Cleaning a sample log

`clean_sample_log` reads the files of a sample log one after another, keeps the samples
whose transaction number is above the one noted for their series in the slab store,
deletes the file and writes the kept samples to a new file of the same name. A file of
which nothing is kept is not written again.

A record is the list of samples that it decodes to. For a series that is not in the
forward index the source follows a null pointer, and for one of which no chunk was put it
waits without end. Otherwise `GetMemSlabInfo` looks for the series among the folded ids
of a slab, and leaves the index of the slot unset if it finds none, so that any number
may be read. All this is a function `slotTxn` from series to the number read, if any.
-/

namespace PromTCS

open RewriteFiles

namespace CleanSampleLog

variable {α : Type*} (sample : α → TreeRefSample) (slotTxn : Word → BitVec 16 → Option Word)

def decided (e : α) : Bool :=
  (slotTxn (sample e).sgid (sample e).mid).isSome

/-- `r.txn > cinfo->txn_[idx]`, where the comparison is that of the unsigned type. -/
def reserves (e : α) : Bool :=
  (slotTxn (sample e).sgid (sample e).mid).any fun txn => txn.ult (sample e).txn

def lastFile (curLogSeq : ℕ) : ℕ :=
  curLogSeq - 1

def readable (fs : Files α) (n : ℕ) : Bool :=
  ((fs n).getD []).all (·.all (decided sample slotTxn))

variable (fs : Files α) (curLogSeq : ℕ)

def cleanedFiles : List ℕ :=
  (List.range (lastFile curLogSeq + 1)).takeWhile (readable sample slotTxn fs)

/-- The files when `clean_sample_log` stops. -/
def cleanSampleLog : Files α :=
  pass (reserves sample slotTxn) fs (cleanedFiles sample slotTxn fs curLogSeq)

/-- The files before `clean_sample_log` and after each of its operations on them. -/
def cleanSampleLogStates : List (Files α) :=
  fs :: passStates (reserves sample slotTxn) fs (cleanedFiles sample slotTxn fs curLogSeq)

def Reserved (fs : Files α) (curLogSeq n : ℕ) (e : α) : Prop :=
  n ∈ cleanedFiles sample slotTxn fs curLogSeq ∧ InFile fs n e ∧
    reserves sample slotTxn e = true

/-- At whatever point cleaning is interrupted, the files hold every sample it keeps,
exactly if each of these stands in two files. -/
theorem cleanSampleLog_interrupted_iff (slotTxn : Word → BitVec 16 → Option Word)
    (fs : Files TreeRefSample) (curLogSeq : ℕ) :
    (∀ disk ∈ cleanSampleLogStates id slotTxn fs curLogSeq, ∀ n s,
        Reserved id slotTxn fs curLogSeq n s → Holds disk s) ↔
      ∀ n s, Reserved id slotTxn fs curLogSeq n s → ∃ m, m ≠ n ∧ InFile fs m s := by
  have hiff := @holds_passStates_iff _ (reserves id slotTxn) fs
    (cleanedFiles id slotTxn fs curLogSeq)
  constructor
  · intro hall n s hs
    exact hiff.mp (fun disk hdisk n hn s hfile hkeep => hall disk hdisk n s ⟨hn, hfile, hkeep⟩)
      n hs.1 s hs.2.1 hs.2.2
  · intro htwice disk hdisk n s hs
    exact hiff.mpr (fun n hn s hfile hkeep => htwice n s ⟨hn, hfile, hkeep⟩) disk hdisk n hs.1 s
      hs.2.1 hs.2.2

def loneSample : TreeRefSample := ⟨1, 1, 1000, 0, 1⟩

def loneFile : Files TreeRefSample :=
  Function.update (fun _ => none) 0 (some [[loneSample]])

/-- After the deletion the sample is in no file. -/
theorem cleanSampleLog_interrupted_loses :
    Reserved id (fun _ _ => some 0) loneFile 1 0 loneSample ∧
      ∃ disk ∈ cleanSampleLogStates id (fun _ _ => some 0) loneFile 1,
        ¬Holds disk loneSample := by
  have hlone : InFile loneFile 0 loneSample :=
    ⟨[[loneSample]], rfl, [loneSample], List.mem_cons_self, List.mem_cons_self⟩
  refine ⟨⟨by decide, hlone, by decide⟩, Function.update loneFile 0 none, ?_, ?_⟩
  · exact List.mem_cons_of_mem _ List.mem_cons_self
  · rintro ⟨n, hn⟩
    by_cases h : n = 0
    · subst h
      exact not_inFile_update_none hn
    · obtain ⟨records, hfile, -⟩ := (inFile_update_of_ne h).mp hn
      rw [loneFile, Function.update_of_ne h] at hfile
      cases hfile

end CleanSampleLog

end PromTCS
