import PromTCS.Lsm.CompactionTree

/-!
# Picking and installing compactions

The current version has two levels that hold files: a flushed memtable adds files to
level 0, and a compaction moves the oldest partition of level 0 to level 1. A compaction
whose inputs are all of one partition replaces exactly the files of that partition, so
that the files of level 1 of one partition stay disjoint.

A flush and a compaction are taken as one step each; what can be seen in the middle of a
flush is treated with the memtables.
-/

namespace PromTCS

open List TableFile

def l0MergeFactor : ℕ := 3

/-- A `Compaction`: its input files and the interval of its outputs. -/
structure Compaction where
  inputs0 : List TableFile
  inputs1 : List TableFile
  timeInterval : Word
deriving DecidableEq, Repr

namespace Compaction

def inputs (c : Compaction) : List TableFile :=
  c.inputs0 ++ c.inputs1

def InOnePartition (c : Compaction) (b : Word) : Prop :=
  ∀ f ∈ c.inputs, ∀ e ∈ f.entries, LiesIn partitionLength b e.time

instance (c : Compaction) (b : Word) : Decidable (c.InOnePartition b) :=
  inferInstanceAs (Decidable (∀ f ∈ c.inputs, ∀ e ∈ f.entries, LiesIn partitionLength b e.time))

end Compaction

def smallestInterval (interval : Word) (files : List TableFile) : Word :=
  files.foldl (fun s f => if f.timeInterval.toInt < s.toInt then f.timeInterval else s) interval

def rightBound (bound : Word) (files : List TableFile) : Word :=
  files.foldl (fun r f => if r.toInt < f.timeEnd.toInt then f.timeEnd else r) bound

/-- `PickCompaction`. The list of output boundaries is not read again, except for its
interval. -/
def pickCompaction (l0 l1 : Level) : Option Compaction :=
  if l0.partitions.length ≤ l0MergeFactor then none
  else do
    let f ← l0.files.head?
    let p ← l0.partitions[1]?
    let inputs0 := l0.files.take p.index
    let inputs1 := l1.overlappingFiles f.timeBoundary.toInt
      (rightBound f.timeEnd inputs0 - 1).toInt
    return ⟨inputs0, inputs1, smallestInterval f.timeInterval (inputs0 ++ inputs1)⟩

structure VersionSet where
  l0 : Level
  l1 : Level
  next : ℕ
deriving DecidableEq, Repr

inductive VersionOp
  | flush (iter : List Entry)
  | compact
deriving DecidableEq, Repr

namespace VersionSet

def empty : VersionSet :=
  ⟨⟨[], []⟩, ⟨[], []⟩, 2⟩

variable (v : VersionSet) (iter : List Entry)

/-- `LogAndApply` of the edit of a flush. -/
def addFiles (metas : List TableFile) : VersionSet :=
  ⟨saveTo v.l0 metas [], saveTo v.l1 [] [], v.next⟩

def flush : VersionSet :=
  let metas := buildTablesTree v.next iter
  { v.addFiles metas with next := v.next + metas.length }

/-- `InstallCompactionResults`. -/
def install (v : VersionSet) (c : Compaction) (files : List TableFile) (next : ℕ) : VersionSet :=
  ⟨saveTo v.l0 [] (c.inputs0.map number),
    saveTo v.l1 files (c.inputs1.map number), next⟩

/-- `BackgroundCompactionTree` when no memtable waits. -/
def compact (fileSize : List Entry → ℕ) (maxOutputFileSize : ℕ) (v : VersionSet) :
    Except Unit VersionSet :=
  match pickCompaction v.l0 v.l1 with
  | none => .ok v
  | some c =>
    match doCompactionWorkTree fileSize maxOutputFileSize v.next c.timeInterval c.inputs with
    | none => .error ()
    | some (files, next) => .ok (v.install c files next)

def Allowed (v : VersionSet) : VersionOp → Prop
  | .flush iter => Merge.Sorted Entry.ikey iter
  | .compact => ∀ c, pickCompaction v.l0 v.l1 = some c → ∃ b, c.InOnePartition b

def step (fileSize : List Entry → ℕ) (maxOutputFileSize : ℕ) (v : VersionSet) :
    VersionOp → Except Unit VersionSet
  | .flush iter => .ok (v.flush iter)
  | .compact => v.compact fileSize maxOutputFileSize

structure Valid (v : VersionSet) : Prop where
  l0 : v.l0.Valid
  l1 : v.l1.Valid
  number_lt : ∀ f, f ∈ v.l0.files ∨ f ∈ v.l1.files → f.number < v.next
  nodup0 : (v.l0.files.map number).Nodup
  nodup1 : (v.l1.files.map number).Nodup
  fits1 : ∀ f ∈ v.l1.files, f.timeBoundary.toInt + partitionLength.toInt < 2 ^ 63

theorem valid_empty : empty.Valid where
  l0 := Level.valid_nil
  l1 := Level.valid_nil
  number_lt := fun _ h => h.elim (fun h => absurd h not_mem_nil)
    fun h => absurd h not_mem_nil
  nodup0 := nodup_nil
  nodup1 := nodup_nil
  fits1 := fun _ h => absurd h not_mem_nil

theorem perm_l0_addFiles (metas : List TableFile) :
    (v.addFiles metas).l0.files.Perm (v.l0.files ++ metas) := by
  have hperm := perm_files_saveTo_new v.l0 metas [] fun _ _ => not_mem_nil
  rw [addFiles]
  simpa using hperm

theorem files_l1_addFiles (metas : List TableFile) :
    (v.addFiles metas).l1.files = v.l1.files := by
  rw [addFiles, files_saveTo_nil]
  simp

theorem perm_l0_flush :
    (v.flush iter).l0.files.Perm (v.l0.files ++ buildTablesTree v.next iter) :=
  v.perm_l0_addFiles _

theorem files_l1_flush : (v.flush iter).l1.files = v.l1.files :=
  v.files_l1_addFiles (buildTablesTree v.next iter)

variable {files : List TableFile} {f : TableFile} {v : VersionSet} {c : Compaction} {b : Word}

theorem Valid.nodup_append {added : List TableFile} {next : ℕ}
    (hfiles : (files.map number).Nodup) (hlt : ∀ f ∈ files, f.number < next)
    (hadded : added.map number = List.range' next added.length) :
    ((files ++ added).map number).Nodup := by
  rw [map_append, hadded, List.nodup_append]
  refine ⟨hfiles, nodup_range', fun n hn m hm heq => ?_⟩
  obtain ⟨f, hf, rfl⟩ := mem_map.1 hn
  have hle := (mem_range'_1.1 hm).1
  exact absurd (hlt f hf) (not_lt.2 (heq ▸ hle))

theorem number_mem_range {added : List TableFile} {next : ℕ}
    (hadded : added.map number = List.range' next added.length) (hf : f ∈ added) :
    next ≤ f.number ∧ f.number < next + added.length := by
  have hmem := mem_map_of_mem (f := number) hf
  rwa [hadded, mem_range'_1] at hmem

theorem Valid.flush (h : v.Valid) {iter : List Entry} (hiter : Merge.Sorted Entry.ikey iter) :
    (v.flush iter).Valid := by
  have hbuilt := built_buildTablesTree v.next iter
  constructor
  · exact h.l0.saveTo (fun f hf => hbuilt.exact hiter hf) (fun f hf => hbuilt.filed hf) []
  · exact h.l1.saveTo (fun _ hf => absurd hf not_mem_nil)
      (fun _ hf => absurd hf not_mem_nil) []
  · intro f hf
    rw [files_l1_flush, (perm_l0_flush v iter).mem_iff, mem_append] at hf
    rcases hf with (hf | hf) | hf
    · exact (h.number_lt f (Or.inl hf)).trans_le (Nat.le_add_right _ _)
    · exact (number_mem_range hbuilt.numbers hf).2
    · exact (h.number_lt f (Or.inr hf)).trans_le (Nat.le_add_right _ _)
  · rw [((perm_l0_flush v iter).map _).nodup_iff]
    exact Valid.nodup_append h.nodup0 (fun f hf => h.number_lt f (Or.inl hf)) hbuilt.numbers
  · rw [files_l1_flush]
    exact h.nodup1
  · rw [files_l1_flush]
    exact h.fits1

theorem smallestInterval_eq (h : ∀ f ∈ files, f.timeInterval = partitionLength) :
    smallestInterval partitionLength files = partitionLength := by
  rw [smallestInterval]
  induction files with
  | nil => rfl
  | cons f files ih =>
    rw [forall_mem_cons] at h
    rw [foldl_cons, h.1, ite_self]
    exact ih h.2

theorem le_rightBound (bound : Word) (files : List TableFile) :
    bound.toInt ≤ (rightBound bound files).toInt := by
  rw [rightBound]
  induction files generalizing bound with
  | nil => exact le_rfl
  | cons f files ih =>
    refine le_trans ?_ (ih _)
    dsimp only
    split_ifs with hlt
    · exact hlt.le
    · exact le_rfl

theorem boundary_le_rightBound (hinterval : f.timeInterval = partitionLength)
    (hfits : f.timeBoundary.toInt + partitionLength.toInt < 2 ^ 63) (files : List TableFile) :
    f.timeBoundary.toInt ≤ (rightBound f.timeEnd files - 1).toInt := by
  have hlength : partitionLength.toInt = 7200000 := rfl
  have hboundary := f.timeBoundary.le_toInt
  have hend : f.timeEnd.toInt = f.timeBoundary.toInt + partitionLength.toInt := by
    rw [timeEnd, hinterval, BitVec.toInt_add]
    exact Int.bmod_eq_of_le (by omega) (by omega)
  have hle := le_rightBound f.timeEnd files
  have hlt := (rightBound f.timeEnd files).toInt_lt
  rw [BitVec.toInt_sub, show (1 : Word).toInt = 1 from rfl,
    Int.bmod_eq_of_le (by omega) (by omega)]
  omega

/-- A compaction of the partition of the file `f`, which is not the last one, so that its end
is an `int64_t`. -/
structure Picked (v : VersionSet) (c : Compaction) (f : TableFile) : Prop where
  head_mem : f ∈ v.l0.files
  fits : f.timeBoundary.toInt + partitionLength.toInt < 2 ^ 63
  mem_inputs0 : ∀ g, g ∈ c.inputs0 ↔ g ∈ v.l0.files ∧ g.timeBoundary = f.timeBoundary
  mem_inputs1 : ∀ g ∈ v.l1.files, g.timeBoundary = f.timeBoundary → g ∈ c.inputs1
  inputs1_mem : ∀ g ∈ c.inputs1, g ∈ v.l1.files
  interval_eq : c.timeInterval = partitionLength

theorem Valid.picked (h : v.Valid) (hc : pickCompaction v.l0 v.l1 = some c) :
    ∃ f, Picked v c f := by
  rw [pickCompaction] at hc
  split at hc
  · exact nomatch hc
  · obtain ⟨f, hf, hc⟩ := Option.bind_eq_some_iff.1 hc
    obtain ⟨p, hp, hc⟩ := Option.bind_eq_some_iff.1 hc
    cases hc
    have hmem : f ∈ v.l0.files := mem_of_head? hf
    have hinterval : f.timeInterval = partitionLength := (h.l0.filed f hmem).interval_eq
    have hinputs1 := h.l1.mem_overlappingFiles (h.l1.fits fun f hf => (h.fits1 f hf).le) f.timeBoundary.toInt
      (rightBound f.timeEnd (v.l0.files.take p.index) - 1).toInt
    have hfits := h.l0.add_length_lt hf hp
    refine ⟨f, hmem, hfits, h.l0.mem_take_second hf hp,
      fun g hg hgb => (hinputs1 g).2 ?_, fun g hg => ((hinputs1 g).1 hg).1, ?_⟩
    · rw [hgb]
      exact ⟨hg, Int.le_sub_one_of_lt (Int.lt_add_of_pos_right _ (by decide)),
        boundary_le_rightBound hinterval hfits _⟩
    · dsimp only
      rw [hinterval]
      refine smallestInterval_eq fun g hg => ?_
      rcases mem_append.1 hg with hg | hg
      · exact (h.l0.filed g (mem_of_mem_take hg)).interval_eq
      · exact (h.l1.filed g ((hinputs1 g).1 hg).1).interval_eq

/-- What a compaction of the partition `b` does. -/
structure Compacts (v : VersionSet) (b : Word) (inputs files : List TableFile)
    (v' : VersionSet) : Prop where
  mem_inputs : ∀ f, f ∈ inputs ↔ (f ∈ v.l0.files ∨ f ∈ v.l1.files) ∧ f.timeBoundary = b
  lies : ∀ f ∈ inputs, ∀ e ∈ f.entries, LiesIn partitionLength b e.time
  written : Compacted partitionLength b v.next
    (Merge.mergeAll Entry.ikey (inputs.map entries)) files
  l0_eq : v'.l0.files = v.l0.files.filter fun f => f.timeBoundary ≠ b
  l1_perm : v'.l1.files.Perm ((v.l1.files.filter fun f => f.timeBoundary ≠ b) ++ files)
  next_eq : v'.next = v.next + files.length
  valid : v'.Valid

theorem filter_number_eq {inputs : List TableFile} (hnodup : (files.map number).Nodup)
    (hinputs : ∀ f, f ∈ inputs ↔ f ∈ files ∧ f.timeBoundary = b) :
    (files.filter fun f => f.number ∉ inputs.map number) =
      files.filter fun f => f.timeBoundary ≠ b := by
  refine filter_congr fun f hf => decide_eq_decide.2 (not_congr ⟨fun hmem => ?_, fun hfb => ?_⟩)
  · obtain ⟨g, hg, hgn⟩ := mem_map.1 hmem
    obtain ⟨hgf, hgb⟩ := (hinputs g).1 hg
    rw [← inj_on_of_nodup_map hnodup hgf hf hgn]
    exact hgb
  · exact mem_map_of_mem ((hinputs f).2 ⟨hf, hfb⟩)

theorem boundary_of_liesIn (hexact : f.Exact) (hfiled : f.Filed)
    (h : ∀ e ∈ f.entries, LiesIn partitionLength b e.time) : f.timeBoundary = b := by
  obtain ⟨e, he⟩ := hexact.exists_mem
  rw [← hfiled.boundary_eq e he]
  exact (h e he).partitionOf_eq

theorem Valid.mem_inputs_iff (h : v.Valid) (hpick : v.Picked c f) (hb : c.InOnePartition b) :
    f.timeBoundary = b ∧ (∀ g, g ∈ c.inputs0 ↔ g ∈ v.l0.files ∧ g.timeBoundary = b) ∧
      ∀ g, g ∈ c.inputs1 ↔ g ∈ v.l1.files ∧ g.timeBoundary = b := by
  have hfb : f.timeBoundary = b := by
    have hf := (hpick.mem_inputs0 f).2 ⟨hpick.head_mem, rfl⟩
    exact boundary_of_liesIn (h.l0.exact f hpick.head_mem) (h.l0.filed f hpick.head_mem)
      (hb f (mem_append_left _ hf))
  refine ⟨hfb, ?_, ?_⟩
  · intro g
    rw [hpick.mem_inputs0 g, hfb]
  · intro g
    constructor
    · intro hg
      have hmem := hpick.inputs1_mem g hg
      exact ⟨hmem, boundary_of_liesIn (h.l1.exact g hmem) (h.l1.filed g hmem)
        (hb g (mem_append_right _ hg))⟩
    · rintro ⟨hg, hgb⟩
      exact hpick.mem_inputs1 g hg (hgb.trans hfb.symm)

theorem Valid.install (h : v.Valid) (hexact : ∀ f ∈ files, f.Exact) (hfiled : ∀ f ∈ files, f.Filed)
    (hfits : ∀ f ∈ files, f.timeBoundary.toInt + partitionLength.toInt < 2 ^ 63)
    (hnumbers : files.map number = List.range' v.next files.length) (hl1 : (v.install c
      files (v.next + files.length)).l1.files.Perm ((v.l1.files.filter fun f => f.number ∉
      c.inputs1.map number) ++ files)) :
    (v.install c files (v.next + files.length)).Valid := by
  have hl0 : (v.install c files (v.next + files.length)).l0.files =
      v.l0.files.filter fun f => f.number ∉ c.inputs0.map number :=
    files_saveTo_nil v.l0 _
  constructor
  · exact h.l0.saveTo (fun _ hf => absurd hf not_mem_nil)
      (fun _ hf => absurd hf not_mem_nil) _
  · exact h.l1.saveTo hexact hfiled _
  · intro f hf
    rw [hl0, hl1.mem_iff, mem_append] at hf
    rcases hf with hf | hf | hf
    · exact (h.number_lt f (Or.inl (mem_of_mem_filter hf))).trans_le (Nat.le_add_right _ _)
    · exact (h.number_lt f (Or.inr (mem_of_mem_filter hf))).trans_le (Nat.le_add_right _ _)
    · exact (number_mem_range hnumbers hf).2
  · rw [hl0]
    exact h.nodup0.sublist (filter_sublist.map _)
  · rw [(hl1.map _).nodup_iff]
    exact Valid.nodup_append (h.nodup1.sublist (filter_sublist.map _))
      (fun f hf => h.number_lt f (Or.inr (mem_of_mem_filter hf))) hnumbers
  · intro f hf
    rw [hl1.mem_iff, mem_append] at hf
    rcases hf with hf | hf
    · exact h.fits1 f (mem_of_mem_filter hf)
    · exact hfits f hf

theorem Valid.compacts (h : v.Valid) (fileSize : List Entry → ℕ) (maxOutputFileSize : ℕ)
    (hc : pickCompaction v.l0 v.l1 = some c) (hb : c.InOnePartition b) :
    ∃ files v', v.compact fileSize maxOutputFileSize = .ok v' ∧ v.Compacts b c.inputs files v' := by
  obtain ⟨f, hpick⟩ := h.picked hc
  obtain ⟨hfb, hinputs0, hinputs1⟩ := h.mem_inputs_iff hpick hb
  have hmem : ∀ g, g ∈ c.inputs ↔ (g ∈ v.l0.files ∨ g ∈ v.l1.files) ∧ g.timeBoundary = b := by
    intro g
    rw [Compaction.inputs, mem_append, hinputs0, hinputs1, or_and_right]
  have hsorted : ∀ g ∈ c.inputs, Merge.Sorted Entry.ikey g.entries := by
    intro g hg
    rcases ((hmem g).1 hg).1 with hg | hg
    · exact (h.l0.exact g hg).sorted
    · exact (h.l1.exact g hg).sorted
  obtain ⟨files, hrun, hwritten⟩ := exists_compacted fileSize maxOutputFileSize v.next hsorted hb
  have hlies : ∀ e ∈ Merge.mergeAll Entry.ikey (c.inputs.map entries),
      LiesIn partitionLength b e.time := by
    intro e he
    obtain ⟨g, hg, heg⟩ := mem_mergeAll_iff.1 he
    exact hb g hg e heg
  have hl1 : (v.install c files (v.next + files.length)).l1.files.Perm
      ((v.l1.files.filter fun f => f.number ∉ c.inputs1.map number) ++ files) := by
    refine perm_files_saveTo_new v.l1 files _ fun g hg hmem => ?_
    obtain ⟨g', hg', hnum⟩ := mem_map.1 hmem
    have hlt := h.number_lt g' (Or.inr ((hinputs1 g').1 hg').1)
    exact absurd (number_mem_range hwritten.numbers hg).1 (not_le.2 (hnum ▸ hlt))
  refine ⟨files, v.install c files (v.next + files.length), ?_, hmem, hb, hwritten, ?_, ?_, rfl, ?_⟩
  · simp only [compact, hc, hpick.interval_eq, hrun]
  · rw [← filter_number_eq h.nodup0 hinputs0]
    exact files_saveTo_nil v.l0 _
  · rwa [filter_number_eq h.nodup1 hinputs1] at hl1
  · exact h.install (fun g hg => hwritten.exact
      (Merge.sorted_mergeAll (forall_mem_map.2 hsorted)) hg)
      (fun g hg => hwritten.filed hlies hg)
      (fun g hg => (hwritten.partition_eq g hg).1 ▸ hfb ▸ hpick.fits) hwritten.numbers hl1

def Apart (f g : TableFile) : Prop :=
  f.timeBoundary = g.timeBoundary → f.largest < g.smallest ∨ g.largest < f.smallest

theorem apart_symm {g : TableFile} (h : Apart f g) : Apart g f := fun heq => (h heq.symm).symm

theorem Compacts.pairwise_apart {v' : VersionSet} {inputs : List TableFile}
    (h : v.Compacts b inputs files v') (hapart : v.l1.files.Pairwise Apart) :
    v'.l1.files.Pairwise Apart := by
  rw [h.l1_perm.pairwise_iff fun hfg => apart_symm hfg]
  refine pairwise_append.2 ⟨hapart.filter _, ?_, fun f hf g hg heq => ?_⟩
  · exact h.written.largest_lt_smallest.imp fun hlt _ => Or.inl hlt
  · have hne := of_decide_eq_true (mem_filter.1 hf).2
    exact absurd (heq.trans (h.written.partition_eq g hg).1) hne

theorem valid_step {fileSize : List Entry → ℕ} {maxOutputFileSize : ℕ} {v' : VersionSet}
    {op : VersionOp} (h : v.Valid ∧ v.l1.files.Pairwise Apart) (hop : v.Allowed op)
    (hstep : v.step fileSize maxOutputFileSize op = .ok v') :
    v'.Valid ∧ v'.l1.files.Pairwise Apart := by
  cases op with
  | flush iter =>
    cases hstep
    rw [files_l1_flush]
    exact ⟨h.1.flush hop, h.2⟩
  | compact =>
    cases hc : pickCompaction v.l0 v.l1 with
    | none =>
      have hsame : v.compact fileSize maxOutputFileSize = .ok v := by simp only [compact, hc]
      cases hsame.symm.trans hstep
      exact h
    | some c =>
      obtain ⟨b, hb⟩ := hop c hc
      obtain ⟨files, w, hw, hcompacts⟩ := h.1.compacts fileSize maxOutputFileSize hc hb
      cases hw.symm.trans hstep
      exact ⟨hcompacts.valid, hcompacts.pairwise_apart h.2⟩

theorem valid_of_reaches {fileSize : List Entry → ℕ} {maxOutputFileSize : ℕ}
    (hv : Run.Reaches Allowed (step fileSize maxOutputFileSize) empty v) :
    v.Valid ∧ v.l1.files.Pairwise Apart :=
  hv.invariant (P := fun v => v.Valid ∧ v.l1.files.Pairwise Apart)
    ⟨valid_empty, List.Pairwise.nil⟩ fun _ _ _ h hop hstep => valid_step h hop hstep

end VersionSet

/-- Compaction of one partition writes the merged entries of its inputs to files that are
apart, and level 1 stays disjoint over all runs. -/
theorem compactionTree_preserves (fileSize : List Entry → ℕ) (maxOutputFileSize : ℕ) :
    (∀ (next : ℕ) (b : Word) (inputs : List TableFile),
      (∀ f ∈ inputs, Merge.Sorted Entry.ikey f.entries) →
      (∀ f ∈ inputs, ∀ e ∈ f.entries, LiesIn partitionLength b e.time) →
      ∃ files next', doCompactionWorkTree fileSize maxOutputFileSize next partitionLength inputs =
          some (files, next') ∧
        (files.flatMap entries).Perm (inputs.flatMap entries) ∧
        Merge.Sorted Entry.ikey (files.flatMap entries) ∧
        (files.Pairwise fun f g => ∀ d ∈ f.entries, ∀ e ∈ g.entries,
          ¬d.ikey.user.SameSeries e.ikey.user) ∧
        (∀ f ∈ files, f.Exact) ∧
        files.Pairwise fun f g => f.largest < g.smallest) ∧
    ∀ v, Run.Reaches VersionSet.Allowed (VersionSet.step fileSize maxOutputFileSize)
        VersionSet.empty v →
      v.l1.files.Pairwise fun f g => f.timeBoundary = g.timeBoundary →
        f.largest < g.smallest ∨ g.largest < f.smallest := by
  constructor
  · intro next b inputs hsorted hinputs
    obtain ⟨files, hrun, h⟩ :=
      exists_compacted fileSize maxOutputFileSize next hsorted hinputs
    have hmerged : Merge.Sorted Entry.ikey
        (Merge.mergeAll Entry.ikey (inputs.map entries)) :=
      Merge.sorted_mergeAll (forall_mem_map.2 hsorted)
    refine ⟨files, _, hrun, ?_, ?_, ?_, fun f hf => h.exact hmerged hf, h.largest_lt_smallest⟩
    · rw [h.entries_eq, flatMap_def]
      exact Merge.perm_mergeAll _
    · rwa [h.entries_eq]
    · exact h.before.imp fun hfg d hd e he => (hfg d hd e he).2
  · intro v hv
    exact (VersionSet.valid_of_reaches hv).2

def keyEntry (sgid : Word) (mid : BitVec 16) (t : Word) (seq : ℕ) : Entry :=
  ⟨⟨⟨sgid, mid, t⟩, seq⟩, []⟩

def fourPartitions : List Entry :=
  [keyEntry 1 1 0 1, keyEntry 2 2 1 2, keyEntry 2 2 7200000 3, keyEntry 2 2 14400000 4,
    keyEntry 2 2 21600000 5]

/-- The two series of the first partition go to a file each. -/
theorem compactionTree_preserves_fourPartitions :
    ∃ v : VersionSet, v.l1.files.map entries = [[keyEntry 1 1 0 1], [keyEntry 2 2 1 2]] ∧
      v.l1.files.Pairwise fun f g => f.timeBoundary = g.timeBoundary →
        f.largest < g.smallest ∨ g.largest < f.smallest := by
  have hsorted : Merge.Sorted Entry.ikey fourPartitions := by decide +kernel
  have hpick : (pickCompaction (VersionSet.empty.flush fourPartitions).l0
      (VersionSet.empty.flush fourPartitions).l1).all
        (fun c => decide (c.InOnePartition 0)) = true := by decide +kernel
  have hone : (VersionSet.empty.flush fourPartitions).Allowed .compact := by
    intro c hc
    rw [hc] at hpick
    exact ⟨0, of_decide_eq_true hpick⟩
  have hrun : ((VersionSet.empty.flush fourPartitions).compact (fun _ => 0) 0).toOption.map
      (fun v => v.l1.files.map entries) =
        some [[keyEntry 1 1 0 1], [keyEntry 2 2 1 2]] := by decide +kernel
  obtain ⟨v, hv, hfiles⟩ := Option.map_eq_some_iff.1 hrun
  refine ⟨v, hfiles, (compactionTree_preserves (fun _ => 0) 0).2 v ?_⟩
  exact .tail (.tail .refl ⟨.flush fourPartitions, hsorted, rfl⟩)
    ⟨.compact, hone, Run.eq_ok_of_toOption hv⟩

end PromTCS
