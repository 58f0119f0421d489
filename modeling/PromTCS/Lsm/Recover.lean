import PromTCS.Lsm.TableFile
import Mathlib.Data.Finset.Max
import Mathlib.Data.List.Sort

/-!
# Recovery of the log

`RecoverLogFile` reads the batches of a log into a memtable and writes level 0 tables with
`BuildTables`, the builder of another format: there the key is an id and a time of eight
bytes each, and the value has sixteen bytes of marks behind its first byte, which are left
out. A flush writes tree entries with `BuildTablesTree`. The two never write the same
tables unless there is nothing to write.

A log is recovered with `reuse_logs` off, which is the default.
-/

namespace PromTCS

open List

open Coding

def decodeKey (s : List Byte) : Option (Word × Word) := do
  let tsid ← decodeFixed64BE s
  let t ← decodeFixed64BE (s.drop 8)
  return (tsid, t)

def dropMarks (value : List Byte) : Option (List Byte) :=
  if value.length < 17 then none else some (0 :: value.drop 17)

/-- `time / partition_length * partition_length` of signed numbers. -/
def signedPartitionOf (interval t : Word) : Word :=
  t.sdiv interval * interval

/-- The entry that `BuildTables` writes for one of the memtable. -/
def rewritten (e : Entry) : Option Entry :=
  (dropMarks e.value).map fun value => ⟨e.ikey, value⟩

def buildTables (next : ℕ) (iter : List Entry) : Option (List TableFile) :=
  iter.foldlM (fun metas e => do
    let (_, time) ← decodeKey e.ikey.user.enCodeKey
    let e' ← rewritten e
    return addToTablesAt next (signedPartitionOf partitionLength time) metas e') []

def insertInto (mem batch : List Entry) : List Entry :=
  batch.foldl (fun mem e => mem.orderedInsert (fun x y => x.ikey ≤ y.ikey) e) mem

structure Recovering where
  mem : List Entry
  files : List TableFile
  next : ℕ
deriving DecidableEq, Repr

def Recovering.writeLevel0Table (s : Recovering) : Option Recovering := do
  let metas ← buildTables s.next s.mem
  return ⟨[], s.files ++ metas, s.next + metas.length⟩

variable (full : List Entry → Bool)

def Recovering.addBatch (s : Recovering) (batch : List Entry) :
    Option Recovering :=
  let s := { s with mem := insertInto s.mem batch }
  if full s.mem then s.writeLevel0Table else some s

/-- `RecoverLogFile`: `full` tells when a memtable has reached `write_buffer_size`. -/
def recoverLogFile (next : ℕ) (log : List (List Entry)) :
    Option (List TableFile) := do
  let s ← log.foldlM (Recovering.addBatch full) ⟨[], [], next⟩
  let s ← s.writeLevel0Table
  return s.files

def fileEntries (files : List TableFile) : List Entry :=
  files.flatMap TableFile.entries

theorem mem_addToTablesAt {next : ℕ} {boundary : Word} {metas : List TableFile} {e x : Entry} :
    x ∈ fileEntries (addToTablesAt next boundary metas e) ↔ x ∈ fileEntries metas ∨ x = e := by
  rw [addToTablesAt]
  split
  · rename_i hany
    obtain ⟨g, hg, hgb⟩ := any_eq_true.1 hany
    simp only [fileEntries, mem_flatMap, mem_map, addToTable]
    constructor
    · rintro ⟨f, ⟨f', hf', rfl⟩, hx⟩
      split at hx
      · rcases mem_append.1 hx with hx | hx
        · exact Or.inl ⟨f', hf', hx⟩
        · exact Or.inr (mem_singleton.1 hx)
      · exact Or.inl ⟨f', hf', hx⟩
    · rintro (⟨f, hf, hx⟩ | rfl)
      · refine ⟨_, ⟨f, hf, rfl⟩, ?_⟩
        split
        · exact mem_append_left _ hx
        · exact hx
      · refine ⟨_, ⟨g, hg, rfl⟩, ?_⟩
        rw [if_pos (eq_of_beq hgb)]
        exact mem_append_right _ (mem_singleton_self _)
  · simp [fileEntries, TableFile.start]

theorem mem_foldlM_addToTablesAt {next : ℕ} {iter : List Entry} {metas metas' : List TableFile}
    (h : iter.foldlM (fun metas e => do
      let (_, time) ← decodeKey e.ikey.user.enCodeKey
      let e' ← rewritten e
      return addToTablesAt next (signedPartitionOf partitionLength time) metas e') metas =
        some metas') (x : Entry) :
    x ∈ fileEntries metas' ↔ x ∈ fileEntries metas ∨ ∃ e ∈ iter, rewritten e = some x := by
  induction iter generalizing metas with
  | nil =>
    cases h
    simp
  | cons e iter ih =>
    rw [foldlM_cons] at h
    obtain ⟨metas₁, hstep, hrest⟩ := Option.bind_eq_some_iff.1 h
    obtain ⟨p, -, hstep⟩ := Option.bind_eq_some_iff.1 hstep
    obtain ⟨e', he', hstep⟩ := Option.bind_eq_some_iff.1 hstep
    cases hstep
    rw [ih hrest, mem_addToTablesAt, exists_mem_cons_iff, he', or_assoc,
      Option.some.injEq, eq_comm]

theorem mem_buildTables {next : ℕ} {iter : List Entry} {metas : List TableFile}
    (h : buildTables next iter = some metas) (x : Entry) :
    x ∈ fileEntries metas ↔ ∃ e ∈ iter, rewritten e = some x := by
  rw [mem_foldlM_addToTablesAt h]
  exact or_iff_right not_mem_nil

theorem mem_insertInto {mem batch : List Entry} {e : Entry} :
    e ∈ insertInto mem batch ↔ e ∈ batch ∨ e ∈ mem := by
  induction batch generalizing mem with
  | nil => simp [insertInto]
  | cons x batch ih =>
    have hrest : insertInto mem (x :: batch) =
        insertInto (mem.orderedInsert (fun x y => x.ikey ≤ y.ikey) x) batch := rfl
    rw [hrest, ih, mem_orderedInsert, mem_cons, or_left_comm, or_assoc]

namespace Recovering

def Holds (s : Recovering) (done : List Entry) : Prop :=
  ∀ x, x ∈ fileEntries s.files ∨ (∃ e ∈ s.mem, rewritten e = some x) ↔
    ∃ e ∈ done, rewritten e = some x

theorem Holds.writeLevel0Table {s s' : Recovering} {done : List Entry} (h : s.Holds done)
    (hwrite : s.writeLevel0Table = some s') : s'.mem = [] ∧ s'.Holds done := by
  obtain ⟨metas, hmetas, hwrite⟩ := Option.bind_eq_some_iff.1 hwrite
  cases hwrite
  refine ⟨rfl, fun x => ?_⟩
  rw [← h x, ← mem_buildTables hmetas]
  simp [fileEntries]

theorem Holds.insert {s : Recovering} {done : List Entry} (h : s.Holds done) (batch : List Entry) :
    ({ s with mem := insertInto s.mem batch } : Recovering).Holds (done ++ batch) := by
  intro x
  simp only [mem_insertInto, mem_append, or_and_right, exists_or]
  rw [← h x, or_assoc, or_comm (a := ∃ e ∈ batch, rewritten e = some x)]

theorem Holds.addBatch {full : List Entry → Bool} {s s' : Recovering} {done batch : List Entry}
    (h : s.Holds done) (hadd : s.addBatch full batch = some s') : s'.Holds (done ++ batch) := by
  rw [Recovering.addBatch] at hadd
  split at hadd
  · exact ((h.insert batch).writeLevel0Table hadd).2
  · cases hadd
    exact h.insert batch

theorem Holds.foldlM {full : List Entry → Bool} {log : List (List Entry)} {s s' : Recovering}
    {done : List Entry} (h : s.Holds done)
    (hrun : log.foldlM (Recovering.addBatch full) s = some s') :
    s'.Holds (done ++ log.flatten) := by
  induction log generalizing s done with
  | nil =>
    cases hrun
    rwa [flatten_nil, append_nil]
  | cons batch log ih =>
    rw [foldlM_cons] at hrun
    obtain ⟨s₁, hadd, hrest⟩ := Option.bind_eq_some_iff.1 hrun
    rw [flatten_cons, ← append_assoc]
    exact ih (h.addBatch hadd) hrest

end Recovering

theorem mem_recoverLogFile {full : List Entry → Bool} {next : ℕ} {log : List (List Entry)}
    {files : List TableFile} (h : recoverLogFile full next log = some files) (x : Entry) :
    x ∈ fileEntries files ↔ ∃ e ∈ log.flatten, rewritten e = some x := by
  obtain ⟨s, hrun, h⟩ := Option.bind_eq_some_iff.1 h
  obtain ⟨s', hwrite, h⟩ := Option.bind_eq_some_iff.1 h
  cases h
  have hinit : (⟨[], [], next⟩ : Recovering).Holds [] := fun x => by simp [fileEntries]
  obtain ⟨hmem, hholds⟩ := (hinit.foldlM hrun).writeLevel0Table hwrite
  rw [nil_append] at hholds
  rw [← hholds x, hmem]
  simp

theorem recoverLogFile_nil (next : ℕ) {log : List (List Entry)}
    (hlog : log.flatten = []) : recoverLogFile full next log = some [] := by
  have hadd : Recovering.addBatch full ⟨[], [], next⟩ [] = some ⟨[], [], next⟩ := by
    rw [Recovering.addBatch]
    split <;> rfl
  have hrun : log.foldlM (Recovering.addBatch full) ⟨[], [], next⟩ = some ⟨[], [], next⟩ := by
    induction log with
    | nil => rfl
    | cons batch log ih =>
      rw [flatten_cons, append_eq_nil_iff] at hlog
      rw [foldlM_cons, hlog.1, hadd]
      exact ih hlog.2
  rw [recoverLogFile, hrun]
  rfl

theorem length_of_rewritten {e x : Entry} (h : rewritten e = some x) :
    x.value.length < e.value.length := by
  obtain ⟨value, hvalue, rfl⟩ := Option.map_eq_some_iff.1 h
  rw [dropMarks] at hvalue
  split at hvalue
  · cases hvalue
  · cases hvalue
    simp only [length_cons, length_drop]
    omega

/-- A log is recovered to what a flush writes only if it holds nothing. -/
theorem recoverLogFile_agrees_iff (next : ℕ)
    (log : List (List Entry)) :
    (∃ files, recoverLogFile full next log = some files ∧ (∀ f ∈ files, f.Filed) ∧
      ∀ x, x ∈ fileEntries files ↔
        x ∈ fileEntries (buildTablesTree next (insertInto [] log.flatten))) ↔
      log.flatten = [] := by
  have hflushed : ∀ x, x ∈ fileEntries (buildTablesTree next (insertInto [] log.flatten)) ↔
      x ∈ log.flatten := by
    intro x
    rw [fileEntries, mem_flatMap, (built_buildTablesTree _ _).mem_iff, mem_insertInto]
    exact or_iff_left not_mem_nil
  constructor
  · rintro ⟨files, hfiles, -, hsame⟩
    -- an entry with a longest value would have to be written for one with a longer value
    by_contra hne
    obtain ⟨e, he, hmax⟩ := log.flatten.toFinset.exists_max_image (fun e => e.value.length)
      (toFinset_nonempty_iff _ |>.2 hne)
    have hmem := (hsame e).2 ((hflushed e).2 (mem_toFinset.1 he))
    obtain ⟨e', he', hrewritten⟩ := (mem_recoverLogFile hfiles e).1 hmem
    exact (length_of_rewritten hrewritten).not_ge (hmax e' (mem_toFinset.2 he'))
  · intro hlog
    refine ⟨[], recoverLogFile_nil full next hlog, nofun,
      fun x => ?_⟩
    rw [hlog]
    rfl

def loggedEntry : Entry :=
  ⟨⟨⟨1, 1, 0⟩, 1⟩, List.replicate 20 7⟩

/-- Recovery shortens the value and puts the entry into another partition. -/
theorem recoverLogFile_disagrees :
    (recoverLogFile (fun _ => false) 3 [[loggedEntry]]).map
        (fun files => files.map fun f => (f.timeBoundary, f.entries)) =
      some [(72057594031200000, [⟨⟨⟨1, 1, 0⟩, 1⟩, [0, 7, 7, 7]⟩])] ∧
    (buildTablesTree 3 [loggedEntry]).map (fun f => (f.timeBoundary, f.entries)) =
      [(0, [loggedEntry])] := by
  decide +kernel

end PromTCS
