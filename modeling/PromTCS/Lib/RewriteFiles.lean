import Mathlib.Data.Nat.Notation
import Mathlib.Logic.Function.Basic
import Mathlib.Tactic.Tauto

/-!
# Files rewritten in place

Numbered files hold records, and a record holds entries. A pass over some of the files
keeps the entries that satisfy a test: a file is read, deleted and, if anything is kept,
created again and written record by record. The states that the disk goes through are
those a crash may leave.
-/

namespace RewriteFiles

open List Function

variable {α : Type*}

/-- The records of each file that exists. -/
abbrev Files (α : Type*) := ℕ → Option (List (List α))

def InFile (fs : Files α) (n : ℕ) (s : α) : Prop :=
  ∃ records, fs n = some records ∧ ∃ record ∈ records, s ∈ record

def Holds (fs : Files α) (s : α) : Prop :=
  ∃ n, InFile fs n s

variable {fs : Files α} {s : α} {n m : ℕ} {ns : List ℕ}

theorem inFile_update_of_ne (h : m ≠ n) {file : Option (List (List α))} :
    InFile (update fs n file) m s ↔ InFile fs m s := by
  rw [InFile, update_of_ne h]
  rfl

theorem not_inFile_update_none : ¬InFile (update fs n none) n s := by
  rintro ⟨records, hfile, -⟩
  rw [update_self] at hfile
  cases hfile

section Pass

variable (keep : α → Bool)

def kept (records : List (List α)) : List (List α) :=
  (records.map (List.filter keep)).filter (! ·.isEmpty)

def keptFile (records : List (List α)) : Option (List (List α)) :=
  if (kept keep records).isEmpty then none else some (kept keep records)

def rewrite (fs : Files α) (n : ℕ) : Files α :=
  match fs n with
  | none => fs
  | some records => update fs n (keptFile keep records)

def rewriteStates (fs : Files α) (n : ℕ) : List (Files α) :=
  match fs n with
  | none => []
  | some records =>
    update fs n none ::
      if (kept keep records).isEmpty then []
      else (List.range ((kept keep records).length + 1)).map fun k =>
        update fs n (some ((kept keep records).take k))

def pass (fs : Files α) (ns : List ℕ) : Files α :=
  ns.foldl (rewrite keep) fs

def passStates : Files α → List ℕ → List (Files α)
  | _, [] => []
  | fs, n :: ns => rewriteStates keep fs n ++ passStates (rewrite keep fs n) ns

end Pass

variable {keep : α → Bool}

theorem exists_mem_kept {records : List (List α)} :
    (∃ record ∈ kept keep records, s ∈ record) ↔
      (∃ record ∈ records, s ∈ record) ∧ keep s = true := by
  constructor
  · rintro ⟨record, hrecord, hs⟩
    obtain ⟨old, hold, rfl⟩ := mem_map.mp (mem_filter.mp hrecord).1
    obtain ⟨hmem, hkeep⟩ := mem_filter.mp hs
    exact ⟨⟨old, hold, hmem⟩, hkeep⟩
  · rintro ⟨⟨record, hrecord, hs⟩, hkeep⟩
    have hmem : s ∈ record.filter keep := mem_filter.mpr ⟨hs, hkeep⟩
    refine ⟨record.filter keep, mem_filter.mpr ⟨mem_map_of_mem hrecord, ?_⟩, hmem⟩
    rw [Bool.not_eq_true', isEmpty_eq_false_iff]
    exact ne_nil_of_mem hmem

theorem inFile_rewrite :
    InFile (rewrite keep fs n) m s ↔ InFile fs m s ∧ (m = n → keep s = true) := by
  cases hfile : fs n with
  | none =>
    simp only [rewrite, hfile]
    refine (and_iff_left_of_imp fun hs hm => ?_).symm
    obtain ⟨records, hrecords, -⟩ := hs
    rw [hm, hfile] at hrecords
    cases hrecords
  | some records =>
    simp only [rewrite, hfile]
    by_cases hm : m = n
    · subst hm
      have hold : InFile fs m s ↔ ∃ record ∈ records, s ∈ record := by
        simp [InFile, hfile]
      have hnew : InFile (update fs m (keptFile keep records)) m s ↔
          ∃ record ∈ kept keep records, s ∈ record := by
        rw [InFile, update_self, keptFile]
        split
        next hempty => simp [List.isEmpty_iff.mp hempty]
        next => simp
      rw [hnew, exists_mem_kept, hold]
      exact and_congr_right fun _ => ⟨fun h _ => h, fun h => h rfl⟩
    · rw [inFile_update_of_ne hm]
      exact (and_iff_left fun h => absurd h hm).symm

theorem inFile_pass : InFile (pass keep fs ns) m s ↔ InFile fs m s ∧ (m ∈ ns → keep s = true) := by
  induction ns generalizing fs with
  | nil => simp [pass]
  | cons n ns ih =>
    rw [pass, foldl_cons, ← pass, ih, inFile_rewrite, mem_cons]
    tauto

theorem pass_of_notMem (hm : m ∉ ns) : pass keep fs ns m = fs m := by
  induction ns generalizing fs with
  | nil => rfl
  | cons n ns ih =>
    have hne : m ≠ n := fun h => hm (h ▸ mem_cons_self)
    rw [pass, foldl_cons, ← pass, ih fun h => hm (mem_cons_of_mem _ h)]
    cases hfile : fs n with
    | none => simp only [rewrite, hfile]
    | some records =>
      simp only [rewrite, hfile]
      exact update_of_ne hne _ _

/-- What holds of all records, and of a record of which a part is kept, holds after a pass. -/
theorem forall_record_pass {P : List α → Prop} (hkeep : ∀ r, P r → P (r.filter keep))
    (h : ∀ n records, fs n = some records → ∀ r ∈ records, P r) (ns : List ℕ) :
    ∀ n records, pass keep fs ns n = some records → ∀ r ∈ records, P r := by
  induction ns generalizing fs with
  | nil => exact h
  | cons m ns ih =>
    refine ih fun n records hfile r hr => ?_
    cases hold : fs m with
    | none =>
      simp only [rewrite, hold] at hfile
      exact h n records hfile r hr
    | some old =>
      simp only [rewrite, hold] at hfile
      by_cases hn : n = m
      · subst hn
        rw [update_self, keptFile] at hfile
        split at hfile
        next => cases hfile
        next =>
          cases hfile
          obtain ⟨r', hr', rfl⟩ := mem_map.mp (mem_filter.mp hr).1
          exact hkeep r' (h n old hold r' hr')
      · rw [update_of_ne hn] at hfile
        exact h n records hfile r hr

theorem exists_update_of_mem_passStates {disk : Files α} (h : disk ∈ passStates keep fs ns) :
    ∃ fs' n file, disk = update fs' n file ∧
      ∀ m s, keep s = true → (InFile fs' m s ↔ InFile fs m s) := by
  induction ns generalizing fs with
  | nil => cases h
  | cons n ns ih =>
    rcases mem_append.mp h with h | h
    · unfold rewriteStates at h
      cases hfile : fs n with
      | none => simp [hfile] at h
      | some records =>
        simp only [hfile, mem_cons] at h
        rcases h with rfl | h
        · exact ⟨fs, n, none, rfl, fun _ _ _ => Iff.rfl⟩
        · split at h
          next => cases h
          next =>
            obtain ⟨k, -, rfl⟩ := mem_map.mp h
            exact ⟨fs, n, _, rfl, fun _ _ _ => Iff.rfl⟩
    · obtain ⟨fs', n', file, hdisk, hsame⟩ := ih h
      refine ⟨fs', n', file, hdisk, fun m s hkeep => (hsame m s hkeep).trans ?_⟩
      rw [inFile_rewrite]
      exact and_iff_left fun _ => hkeep

theorem exists_deleted (hn : n ∈ ns) (hs : InFile fs n s) (hkeep : keep s = true) :
    ∃ fs', update fs' n none ∈ passStates keep fs ns ∧
      ∀ m, InFile fs' m s → InFile fs m s := by
  induction ns generalizing fs with
  | nil => cases hn
  | cons n' ns ih =>
    by_cases heq : n = n'
    · subst heq
      obtain ⟨records, hfile, -⟩ := hs
      refine ⟨fs, mem_append_left _ ?_, fun _ h => h⟩
      simp only [rewriteStates, hfile]
      exact mem_cons_self
    · have hrest : n ∈ ns := (mem_cons.mp hn).resolve_left heq
      obtain ⟨fs', hmem, hsub⟩ := ih hrest (inFile_rewrite.mpr ⟨hs, fun _ => hkeep⟩)
      exact ⟨fs', mem_append_right _ hmem, fun m h => (inFile_rewrite.mp (hsub m h)).1⟩

theorem holds_passStates_iff (fs : Files α) (ns : List ℕ) :
    (∀ disk ∈ fs :: passStates keep fs ns, ∀ n ∈ ns, ∀ s, InFile fs n s → keep s = true →
        Holds disk s) ↔
      ∀ n ∈ ns, ∀ s, InFile fs n s → keep s = true → ∃ m, m ≠ n ∧ InFile fs m s := by
  constructor
  · intro hall n hn s hs hkeep
    obtain ⟨fs', hmem, hsub⟩ := exists_deleted hn hs hkeep
    obtain ⟨m, hm⟩ := hall _ (mem_cons_of_mem _ hmem) n hn s hs hkeep
    have hne : m ≠ n := by
      rintro rfl
      exact not_inFile_update_none hm
    exact ⟨m, hne, hsub m ((inFile_update_of_ne hne).mp hm)⟩
  · intro htwice disk hdisk n hn s hs hkeep
    rcases mem_cons.mp hdisk with rfl | hdisk
    · exact ⟨n, hs⟩
    · obtain ⟨fs', n', file, rfl, hsame⟩ := exists_update_of_mem_passStates hdisk
      obtain ⟨m, hne, hm⟩ := htwice n hn s hs hkeep
      -- one of the two files is not the one being rewritten
      by_cases hn' : n = n'
      · exact ⟨m, (inFile_update_of_ne (hn' ▸ hne)).mpr ((hsame m s hkeep).mpr hm)⟩
      · exact ⟨n, (inFile_update_of_ne hn').mpr ((hsame n s hkeep).mpr hs)⟩

end RewriteFiles
