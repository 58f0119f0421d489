import PromTCS.Lib.BinarySearch
import PromTCS.Lsm.TableFile
import Mathlib.Data.List.Sort

/-!
# The levels of a version

The files of a level are sorted by partition and then by file number. `SaveTo` merges
the files of an edit into a level and leaves out those the edit deletes; on the way it
notes the first file of every partition. `OverlappingPartitions` finds the partitions,
or the files of the partitions, that meet an interval of time, with two binary searches.
-/

namespace PromTCS

open List TableFile

/-- An element of `time_partitions_` with its element of `time_partition_indexes_`. -/
structure Partition where
  boundary : Word
  index : ℕ
deriving DecidableEq, Repr

structure Level where
  files : List TableFile
  partitions : List Partition
deriving DecidableEq, Repr

/-- The `LevelState` of a builder, with the level it fills. -/
structure LevelState where
  level : Level
  currentBoundary : Word
deriving DecidableEq, Repr

def LevelState.init : LevelState :=
  ⟨⟨[], []⟩, -1#64⟩

/-- What `MaybeAddFile` does with a file that is not deleted. -/
def LevelState.push (s : LevelState) (f : TableFile) : LevelState where
  level :=
    { files := s.level.files ++ [f]
      partitions :=
        if s.currentBoundary = -1#64 then s.level.partitions ++ [⟨f.timeBoundary, 0⟩]
        else if s.currentBoundary ≠ f.timeBoundary then
          s.level.partitions ++ [⟨f.timeBoundary, s.level.files.length⟩]
        else s.level.partitions }
  currentBoundary := f.timeBoundary

def maybeAddFile (deleted : List ℕ) (s : LevelState) (f : TableFile) : LevelState :=
  if f.number ∉ deleted then s.push f else s

/-- The order in which `SaveTo` comes to the files of the base and the added files. -/
def saveOrder : List TableFile → List TableFile → List TableFile
  | base, [] => base
  | base, f :: added =>
    base.takeWhile (fun g => decide (g.timeKey ≤ f.timeKey)) ++
      f :: saveOrder (base.dropWhile fun g => decide (g.timeKey ≤ f.timeKey)) added

/-- `SaveTo` for one level; the added files are in a set ordered by `BySmallestTime`. -/
def saveFiles (base : Level) (addedFiles : List TableFile) (deletedFiles : List ℕ) : Level :=
  ((saveOrder base.files (addedFiles.insertionSort fun f g => f.timeKey ≤ g.timeKey)).foldl
    (maybeAddFile deletedFiles) LevelState.init).level

/-- `SaveTo` after one edit: a file that is added is not deleted. -/
def saveTo (base : Level) (added : List TableFile) (deleted : List ℕ) : Level :=
  saveFiles base added (deleted.filter fun n => n ∉ added.map number)

namespace Level

/-- The `time_interval` of the first file of a partition. -/
def interval (l : Level) (p : Partition) : Word :=
  l.files[p.index]?.elim 0 timeInterval

/-- Behind the last time of a partition. -/
def rightEdge (l : Level) (p : Partition) : ℤ :=
  p.boundary.toInt + (l.interval p).toInt

/-- `time_partitions_[i] + time_interval - 1`, which is computed in `int64_t`. -/
def lastTime (l : Level) (p : Partition) : ℤ :=
  (p.boundary + l.interval p - 1).toInt

/-- The first partition that does not end before `mint`. -/
def left (l : Level) (mint : ℤ) : ℕ :=
  BinarySearch.search (fun i => l.partitions[i]?.any fun p => decide (mint ≤ l.lastTime p))
    l.partitions.length 0 l.partitions.length

/-- The first partition that starts after `maxt`, the `right + 1` of the source. -/
def rightEnd (l : Level) (maxt : ℤ) : ℕ :=
  BinarySearch.search (fun i => l.partitions[i]?.any fun p => decide (maxt < p.boundary.toInt))
    l.partitions.length 0 l.partitions.length

/-- `OverlappingPartitions` with the partitions as its result. An empty level, a `left`
past the last partition and a `right` of -1 all leave it empty. -/
def overlappingPartitions (l : Level) (mint maxt : ℤ) : List Partition :=
  (l.partitions.take (l.rightEnd maxt)).drop (l.left mint)

/-- The bounds of the loop over the files in the other overloads. -/
def overlappingRange (l : Level) (mint maxt : ℤ) : ℕ × ℕ :=
  match l.partitions[l.left mint]?, l.partitions[l.rightEnd maxt]? with
  | none, _ => (0, 0)
  | some p, some q => (p.index, q.index)
  | some p, none => (p.index, l.files.length)

/-- `OverlappingPartitions` with the indexes of files as its result. -/
def overlappingIndexes (l : Level) (mint maxt : ℤ) : List ℕ :=
  let range := l.overlappingRange mint maxt
  List.range' range.1 (range.2 - range.1)

def overlappingFiles (l : Level) (mint maxt : ℤ) : List TableFile :=
  (l.overlappingIndexes mint maxt).filterMap fun i => l.files[i]?

end Level

section SaveTo

theorem perm_saveOrder (base added : List TableFile) :
    (saveOrder base added).Perm (base ++ added) := by
  induction added generalizing base with
  | nil => rw [saveOrder, append_nil]
  | cons f added ih =>
    rw [saveOrder]
    refine ((ih _).cons f |>.append_left _).trans ?_
    rw [← cons_append, ← append_assoc]
    refine (List.perm_middle.append_right added).trans ?_
    rw [takeWhile_append_dropWhile, cons_append]
    exact List.perm_middle.symm

theorem sorted_saveOrder {base added : List TableFile}
    (hbase : Merge.Sorted timeKey base)
    (hadded : Merge.Sorted timeKey added) :
    Merge.Sorted timeKey (saveOrder base added) := by
  induction added generalizing base with
  | nil => exact hbase
  | cons f added ih =>
    obtain ⟨hf, hrest⟩ := pairwise_cons.1 hadded
    rw [saveOrder]
    set before := base.takeWhile fun g => decide (g.timeKey ≤ f.timeKey) with hbefore
    set after := base.dropWhile fun g => decide (g.timeKey ≤ f.timeKey) with hafter
    have hle : ∀ g ∈ before, g.timeKey ≤ f.timeKey := fun g hg =>
      of_decide_eq_true (all_eq_true.1 all_takeWhile g hg)
    have htail : ∀ g ∈ saveOrder after added, f.timeKey ≤ g.timeKey := by
      intro g hg
      rcases mem_append.1 ((perm_saveOrder after added).subset hg) with hg | hg
      · exact (hbase.lt_of_mem_dropWhile hg).le
      · exact hf g hg
    have hsorted : Merge.Sorted timeKey after :=
      List.Pairwise.sublist (dropWhile_sublist _) hbase
    refine pairwise_append.2 ⟨List.Pairwise.sublist (takeWhile_sublist _) hbase,
      pairwise_cons.2 ⟨htail, ih hsorted hrest⟩, fun g hg h hh => ?_⟩
    rcases mem_cons.1 hh with rfl | hh
    · exact hle g hg
    · exact (hle g hg).trans (htail h hh)

theorem files_foldl_push (s : LevelState) (order : List TableFile) :
    (order.foldl LevelState.push s).level.files = s.level.files ++ order := by
  induction order generalizing s with
  | nil => rw [foldl_nil, append_nil]
  | cons f order ih => rw [foldl_cons, ih, LevelState.push, append_assoc,
      singleton_append]

variable (base : Level) (added : List TableFile) (deleted : List ℕ)

/-- The files that `SaveTo` keeps, in their order. -/
def kept : List TableFile :=
  (saveOrder base.files (added.insertionSort fun f g => f.timeKey ≤ g.timeKey)).filter
    fun f => f.number ∉ deleted.filter fun n => n ∉ added.map number

theorem saveTo_eq :
    saveTo base added deleted =
      ((kept base added deleted).foldl LevelState.push LevelState.init).level := by
  rw [kept, foldl_filter]
  simp only [saveTo, saveFiles, decide_eq_true_eq]
  rfl

theorem files_saveTo :
    (saveTo base added deleted).files = kept base added deleted := by
  rw [saveTo_eq, files_foldl_push, LevelState.init, nil_append]

theorem perm_files_saveTo :
    (saveTo base added deleted).files.Perm ((base.files ++ added).filter fun f =>
      f.number ∉ deleted.filter fun n => n ∉ added.map number) := by
  rw [files_saveTo, kept]
  exact ((perm_saveOrder _ _).trans ((perm_insertionSort _ added).append_left _)).filter _

theorem files_saveTo_nil (base : Level) (deleted : List ℕ) :
    (saveTo base [] deleted).files = base.files.filter fun f => f.number ∉ deleted := by
  have hdeleted : (deleted.filter fun n => n ∉ ([] : List TableFile).map number) =
      deleted := filter_eq_self.2 fun _ _ => by simp
  rw [files_saveTo, kept, hdeleted, insertionSort_nil, saveOrder]

theorem perm_files_saveTo_new
    (hnew : ∀ f ∈ added, f.number ∉ deleted) :
    (saveTo base added deleted).files.Perm
      (base.files.filter (fun f => f.number ∉ deleted) ++ added) := by
  have hdeleted : (deleted.filter fun n => n ∉ added.map number) = deleted := by
    rw [filter_eq_self]
    intro n hn
    refine decide_eq_true fun hmem => ?_
    obtain ⟨f, hf, rfl⟩ := mem_map.1 hmem
    exact hnew f hf hn
  have hkept : added.filter (fun f => f.number ∉ deleted) = added :=
    filter_eq_self.2 fun f hf => decide_eq_true (hnew f hf)
  have hperm := perm_files_saveTo base added deleted
  rwa [hdeleted, filter_append, hkept] at hperm

theorem sorted_saveOrder_added {base : Level}
    (h : Merge.Sorted timeKey base.files) (added : List TableFile) :
    Merge.Sorted timeKey
      (saveOrder base.files (added.insertionSort fun f g => f.timeKey ≤ g.timeKey)) := by
  have htotal : Std.Total fun f g : TableFile => f.timeKey ≤ g.timeKey :=
    ⟨fun f g => le_total f.timeKey g.timeKey⟩
  have htrans : IsTrans TableFile fun f g => f.timeKey ≤ g.timeKey :=
    ⟨fun _ _ _ => le_trans⟩
  exact sorted_saveOrder h (pairwise_insertionSort _ added)

theorem sorted_files_saveTo {base : Level} (h : Merge.Sorted timeKey base.files)
    (added : List TableFile) (deleted : List ℕ) :
    Merge.Sorted timeKey (saveTo base added deleted).files := by
  rw [files_saveTo]
  exact (sorted_saveOrder_added h added).filter _

end SaveTo

section Partitions

structure Level.Indexed (l : Level) : Prop where
  starts : ∀ p ∈ l.partitions, ∃ f, l.files[p.index]? = some f ∧ f.timeBoundary = p.boundary
  ascending : l.partitions.Pairwise fun p q =>
    p.boundary.toInt < q.boundary.toInt ∧ p.index < q.index
  covered : ∀ i f, l.files[i]? = some f →
    ∃ p ∈ l.partitions, p.index ≤ i ∧ p.boundary = f.timeBoundary

structure LevelState.Building (s : LevelState) : Prop where
  indexed : s.level.Indexed
  last : ∃ p, s.level.partitions.getLast? = some p ∧ p.boundary = s.currentBoundary
  current_ne : s.currentBoundary ≠ -1#64

variable {f : TableFile} {s : LevelState} {base : Level} {added : List TableFile}

theorem LevelState.building_push_init (hf : f.timeBoundary ≠ -1#64) :
    (LevelState.init.push f).Building where
  indexed :=
    { starts := by simp [push, init]
      ascending := pairwise_singleton _ _
      covered := by
        intro i g hg
        have hmem := mem_of_getElem? hg
        refine ⟨⟨f.timeBoundary, 0⟩, mem_singleton_self _, Nat.zero_le i, ?_⟩
        rw [mem_singleton.1 hmem] }
  last := ⟨⟨f.timeBoundary, 0⟩, rfl, rfl⟩
  current_ne := hf

theorem Level.Indexed.starts_append {l : Level} (h : l.Indexed) (f : TableFile)
    {p : Partition} (hp : p ∈ l.partitions) :
    ∃ g, (l.files ++ [f])[p.index]? = some g ∧ g.timeBoundary = p.boundary := by
  obtain ⟨g, hg, hgb⟩ := h.starts p hp
  exact ⟨g, by rw [getElem?_append_left (List.getElem?_eq_some_iff.1 hg).1, hg], hgb⟩

theorem Level.Indexed.covered_append {l : Level} (h : l.Indexed) {ps : List Partition}
    (hsub : l.partitions ⊆ ps)
    (hf : ∃ p ∈ ps, p.index ≤ l.files.length ∧ p.boundary = f.timeBoundary) (i : ℕ) (g : TableFile)
    (hg : (l.files ++ [f])[i]? = some g) : ∃ p ∈ ps, p.index ≤ i ∧ p.boundary = g.timeBoundary := by
  rcases Nat.lt_or_ge i l.files.length with hi | hi
  · rw [getElem?_append_left hi] at hg
    obtain ⟨p, hp, hple⟩ := h.covered i g hg
    exact ⟨p, hsub hp, hple⟩
  · rw [getElem?_append_right hi] at hg
    obtain ⟨p, hp, hple, hpb⟩ := hf
    rw [mem_singleton.1 (mem_of_getElem? hg)]
    exact ⟨p, hp, hple.trans hi, hpb⟩

theorem LevelState.Building.push_same (h : s.Building) (hf : s.currentBoundary = f.timeBoundary) :
    (s.push f).Building := by
  have hpush : s.push f = ⟨⟨s.level.files ++ [f], s.level.partitions⟩, f.timeBoundary⟩ := by
    rw [push, if_neg h.current_ne, if_neg (not_not.2 hf)]
  obtain ⟨p, hp, hcur⟩ := h.last
  obtain ⟨g, hg, -⟩ := h.indexed.starts p (mem_of_getLast? hp)
  have hindex : p.index ≤ s.level.files.length := (List.getElem?_eq_some_iff.1 hg).1.le
  rw [hpush]
  exact ⟨⟨fun q hq => h.indexed.starts_append f hq, h.indexed.ascending,
    h.indexed.covered_append (List.Subset.refl _)
      ⟨p, mem_of_getLast? hp, hindex, hcur.trans hf⟩⟩,
    ⟨p, hp, hcur.trans hf⟩, hf ▸ h.current_ne⟩

theorem LevelState.Building.push_new (h : s.Building) (hf : f.timeBoundary ≠ -1#64)
    (hlt : s.currentBoundary.toInt < f.timeBoundary.toInt) : (s.push f).Building := by
  have hne : s.currentBoundary ≠ f.timeBoundary := fun heq => by
    rw [heq] at hlt
    exact lt_irrefl _ hlt
  have hpush : s.push f = ⟨⟨s.level.files ++ [f],
      s.level.partitions ++ [⟨f.timeBoundary, s.level.files.length⟩]⟩, f.timeBoundary⟩ := by
    rw [push, if_neg h.current_ne, if_pos hne]
  obtain ⟨p, hp, hcur⟩ := h.last
  have hle : ∀ q ∈ s.level.partitions, q.boundary.toInt ≤ p.boundary.toInt := by
    intro q hq
    obtain ⟨ps, hsplit⟩ := getLast?_eq_some_iff.1 hp
    rw [hsplit] at hq
    have hasc := h.indexed.ascending
    rw [hsplit, pairwise_append] at hasc
    rcases mem_append.1 hq with hq | hq
    · exact (hasc.2.2 q hq p (mem_singleton_self p)).1.le
    · rw [mem_singleton.1 hq]
  rw [hpush]
  refine ⟨⟨?_, ?_, ?_⟩, ⟨_, getLast?_concat, rfl⟩, hf⟩
  · intro q hq
    rcases mem_append.1 hq with hq | hq
    · exact h.indexed.starts_append f hq
    · rw [mem_singleton.1 hq]
      exact ⟨f, getElem?_concat_length, rfl⟩
  · refine pairwise_append.2 ⟨h.indexed.ascending, pairwise_singleton _ _, ?_⟩
    intro q hq r hr
    rw [mem_singleton.1 hr]
    obtain ⟨g, hg, -⟩ := h.indexed.starts q hq
    exact ⟨(hcur ▸ hle q hq).trans_lt hlt, (List.getElem?_eq_some_iff.1 hg).1⟩
  · exact h.indexed.covered_append (subset_append_left _ _)
      ⟨_, mem_append_right _ (mem_singleton_self _), le_rfl, rfl⟩

theorem LevelState.Building.push (h : s.Building) (hf : f.timeBoundary ≠ -1#64)
    (hle : s.currentBoundary.toInt ≤ f.timeBoundary.toInt) : (s.push f).Building := by
  rcases hle.lt_or_eq with hlt | heq
  · exact h.push_new hf hlt
  · exact h.push_same (BitVec.eq_of_toInt_eq heq)

theorem LevelState.Building.foldl_push (h : s.Building) {order : List TableFile}
    (hsorted : Merge.Sorted timeKey order) (hf : ∀ f ∈ order, f.timeBoundary ≠ -1#64)
    (hle : ∀ f ∈ order, s.currentBoundary.toInt ≤ f.timeBoundary.toInt) :
    (order.foldl LevelState.push s).Building := by
  induction order generalizing s with
  | nil => exact h
  | cons f order ih =>
    rw [forall_mem_cons] at hf hle
    obtain ⟨hfirst, hrest⟩ := pairwise_cons.1 hsorted
    exact ih (h.push hf.1 hle.1) hrest hf.2 fun g hg =>
      boundary_le_of_timeKey_le (hfirst g hg)

theorem indexed_foldl_push {order : List TableFile}
    (hsorted : Merge.Sorted timeKey order)
    (hne : ∀ f ∈ order, f.timeBoundary ≠ -1#64) :
    (order.foldl LevelState.push LevelState.init).level.Indexed := by
  cases order with
  | nil => exact ⟨fun _ hp => absurd hp not_mem_nil, List.Pairwise.nil, fun _ _ hg => nomatch hg⟩
  | cons f order =>
    rw [forall_mem_cons] at hne
    obtain ⟨hfirst, hrest⟩ := pairwise_cons.1 hsorted
    exact ((LevelState.building_push_init hne.1).foldl_push hrest hne.2 fun g hg =>
      boundary_le_of_timeKey_le (hfirst g hg)).indexed

theorem indexed_saveTo (h : Merge.Sorted timeKey base.files) {deleted : List ℕ}
    (hne : ∀ f ∈ (saveTo base added deleted).files, f.timeBoundary ≠ -1#64) :
    (saveTo base added deleted).Indexed := by
  have hsorted := sorted_files_saveTo h added deleted
  rw [files_saveTo] at hne hsorted
  rw [saveTo_eq]
  exact indexed_foldl_push hsorted hne

/-- A level as `SaveTo` leaves it. -/
structure Level.Valid (l : Level) : Prop where
  sorted : Merge.Sorted timeKey l.files
  exact : ∀ f ∈ l.files, f.Exact
  filed : ∀ f ∈ l.files, f.Filed
  indexed : l.Indexed

theorem Level.valid_nil : (⟨[], []⟩ : Level).Valid where
  sorted := List.Pairwise.nil
  exact := nofun
  filed := nofun
  indexed := ⟨nofun, List.Pairwise.nil, fun _ _ h => nomatch h⟩

theorem mem_files_saveTo {deleted : List ℕ} (h : f ∈ (saveTo base added deleted).files) :
    f ∈ base.files ∨ f ∈ added :=
  mem_append.1 (mem_of_mem_filter ((perm_files_saveTo base added deleted).subset h))

theorem Level.Valid.saveTo (h : base.Valid) (hexact : ∀ f ∈ added, f.Exact)
    (hfiled : ∀ f ∈ added, f.Filed) (deleted : List ℕ) : (saveTo base added deleted).Valid := by
  have hx : ∀ f ∈ (PromTCS.saveTo base added deleted).files, f.Exact := fun f hf =>
    (mem_files_saveTo hf).elim (h.exact f) (hexact f)
  have hd : ∀ f ∈ (PromTCS.saveTo base added deleted).files, f.Filed := fun f hf =>
    (mem_files_saveTo hf).elim (h.filed f) (hfiled f)
  exact ⟨sorted_files_saveTo h.sorted added deleted, hx, hd,
    indexed_saveTo h.sorted fun f hf => timeBoundary_ne (hd f hf) (hx f hf)⟩

namespace Level

variable {l : Level} {p : Partition} {k : ℕ}

theorem Indexed.lt_iff (h : l.Indexed) {j : ℕ} {q : Partition} (hp : l.partitions[j]? = some p)
    (hq : l.partitions[k]? = some q) : j < k ↔ p.boundary.toInt < q.boundary.toInt := by
  constructor
  · intro hlt
    exact (Merge.rel_of_getElem? h.ascending hlt hp hq).1
  · intro hlt
    by_contra hle
    rcases (not_lt.1 hle).lt_or_eq with hgt | rfl
    · exact lt_asymm hlt (Merge.rel_of_getElem? h.ascending hgt hq hp).1
    · rw [hp] at hq
      rw [Option.some.inj hq] at hlt
      exact lt_irrefl _ hlt

theorem Indexed.eq_of_boundary (h : l.Indexed) {q : Partition} (hp : p ∈ l.partitions)
    (hq : q ∈ l.partitions) (heq : p.boundary = q.boundary) : p = q := by
  obtain ⟨j, hj⟩ := mem_iff_getElem?.1 hp
  obtain ⟨k, hk⟩ := mem_iff_getElem?.1 hq
  have hjk : j = k := by
    by_contra hne
    rcases Nat.lt_or_gt_of_ne hne with hlt | hlt
    · exact absurd ((h.lt_iff hj hk).1 hlt) (by rw [heq]; exact lt_irrefl _)
    · exact absurd ((h.lt_iff hk hj).1 hlt) (by rw [heq]; exact lt_irrefl _)
  rw [hjk, hk] at hj
  exact (Option.some.inj hj).symm

theorem Valid.index_le_iff (h : l.Valid) (hp : p ∈ l.partitions) {i : ℕ} {f : TableFile}
    (hf : l.files[i]? = some f) : p.index ≤ i ↔ p.boundary.toInt ≤ f.timeBoundary.toInt := by
  constructor
  · intro hle
    obtain ⟨g, hg, hgb⟩ := h.indexed.starts p hp
    rw [← hgb]
    rcases hle.lt_or_eq with hlt | heq
    · exact boundary_le_of_timeKey_le (Merge.rel_of_getElem? h.sorted hlt hg hf)
    · rw [heq, hf] at hg
      rw [Option.some.inj hg]
  · intro hle
    obtain ⟨q, hq, hqi, hqb⟩ := h.indexed.covered i f hf
    rw [← hqb] at hle
    obtain ⟨j, hj⟩ := mem_iff_getElem?.1 hp
    obtain ⟨k, hk⟩ := mem_iff_getElem?.1 hq
    have hjk : j ≤ k := not_lt.1 fun hkj => hle.not_gt ((h.indexed.lt_iff hk hj).1 hkj)
    rcases hjk.lt_or_eq with hlt | rfl
    · exact (Merge.rel_of_getElem? h.indexed.ascending hlt hj hk).2.le.trans hqi
    · rw [hj] at hk
      rwa [Option.some.inj hk]

theorem search_le_iff {test : Partition → Bool}
    (hmono : l.partitions.Pairwise fun p q => test p = true → test q = true)
    (hp : l.partitions[k]? = some p) :
    BinarySearch.search (fun i => l.partitions[i]?.any test) l.partitions.length 0
      l.partitions.length ≤ k ↔ test p = true := by
  have hk := (List.getElem?_eq_some_iff.1 hp).1
  have hsplits := BinarySearch.splits_search
    (p := fun i => l.partitions[i]?.any test) (Nat.sub_le l.partitions.length 0)
    (Nat.zero_le _) fun i j hij hj hi => by
      have hi' := getElem?_eq_getElem (hij.trans_lt hj)
      have hj' := getElem?_eq_getElem hj
      rw [hi', Option.any_some] at hi
      rw [hj', Option.any_some]
      rcases hij.lt_or_eq with hlt | rfl
      · exact Merge.rel_of_getElem? hmono hlt hi' hj' hi
      · exact hi
  rw [hsplits.le_iff (Nat.zero_le k) hk, hp, Option.any_some]

theorem mem_drop_take_iff {α : Type*} {l : List α} {m n : ℕ} {x : α} :
    x ∈ (l.take n).drop m ↔ ∃ i, l[i]? = some x ∧ m ≤ i ∧ i < n := by
  rw [mem_iff_getElem?]
  constructor
  · rintro ⟨i, hi⟩
    rw [getElem?_drop, getElem?_take] at hi
    split at hi
    · rename_i hlt
      exact ⟨m + i, hi, Nat.le_add_right m i, hlt⟩
    · exact nomatch hi
  · rintro ⟨i, hi, hm, hn⟩
    refine ⟨i - m, ?_⟩
    rw [getElem?_drop, Nat.add_sub_cancel' hm, getElem?_take, if_pos hn, hi]

theorem Valid.mem_take_index (h : l.Valid) (hp : p ∈ l.partitions) (f : TableFile) :
    f ∈ l.files.take p.index ↔
      f ∈ l.files ∧ f.timeBoundary.toInt < p.boundary.toInt := by
  rw [← drop_zero (l := l.files.take p.index), mem_drop_take_iff, mem_iff_getElem?]
  constructor
  · rintro ⟨i, hi, -, hlt⟩
    exact ⟨⟨i, hi⟩, not_le.1 fun hle => hlt.not_ge ((h.index_le_iff hp hi).2 hle)⟩
  · rintro ⟨⟨i, hi⟩, hlt⟩
    exact ⟨i, hi, Nat.zero_le i, not_le.1 fun hle => hlt.not_ge ((h.index_le_iff hp hi).1 hle)⟩

/-! ### Lookups -/

/-- Behind the last file of a partition. -/
def indexEnd (l : Level) (k : ℕ) : ℕ :=
  (l.partitions[k + 1]?.map Partition.index).getD l.files.length

theorem lt_rightEnd_iff (h : l.partitions.Pairwise fun p q =>
      p.boundary.toInt < q.boundary.toInt ∧ p.index < q.index)
    (hp : l.partitions[k]? = some p) {maxt : ℤ} :
    k < l.rightEnd maxt ↔ p.boundary.toInt ≤ maxt := by
  rw [← not_le, rightEnd, search_le_iff (h.imp fun hlt htrue => ?_) hp, decide_eq_true_eq, not_lt]
  rw [decide_eq_true_eq] at htrue ⊢
  exact htrue.trans hlt.1

/-- What the two searches need. -/
structure Ascending (l : Level) : Prop where
  index_lt : ∀ p ∈ l.partitions, p.index < l.files.length
  ascending : l.partitions.Pairwise fun p q =>
    p.boundary.toInt < q.boundary.toInt ∧ p.index < q.index
  lastTime_le : l.partitions.Pairwise fun p q => l.lastTime p ≤ l.lastTime q

namespace Ascending

variable {i : ℕ} {mint maxt : ℤ}

theorem left_le_iff (h : l.Ascending) (hp : l.partitions[k]? = some p) :
    l.left mint ≤ k ↔ mint ≤ l.lastTime p := by
  rw [left, search_le_iff (h.lastTime_le.imp fun hle htrue => ?_) hp, decide_eq_true_eq]
  rw [decide_eq_true_eq] at htrue ⊢
  exact htrue.trans hle

theorem between_iff (h : l.Ascending) (hp : l.partitions[k]? = some p) :
    l.left mint ≤ k ∧ k < l.rightEnd maxt ↔ mint ≤ l.lastTime p ∧ p.boundary.toInt ≤ maxt := by
  rw [h.left_le_iff hp, lt_rightEnd_iff h.ascending hp]

theorem mem_overlappingPartitions (h : l.Ascending) : p ∈ l.overlappingPartitions mint maxt ↔
    p ∈ l.partitions ∧ mint ≤ l.lastTime p ∧ p.boundary.toInt ≤ maxt := by
  rw [overlappingPartitions, mem_drop_take_iff, mem_iff_getElem?]
  constructor
  · rintro ⟨k, hk, hbetween⟩
    exact ⟨⟨k, hk⟩, (h.between_iff hk).1 hbetween⟩
  · rintro ⟨⟨k, hk⟩, hmeets⟩
    exact ⟨k, hk, (h.between_iff hk).2 hmeets⟩

theorem index_le_of_le (h : l.Ascending) {j : ℕ} {q : Partition} (hjk : j ≤ k)
    (hq : l.partitions[j]? = some q) (hp : l.partitions[k]? = some p) : q.index ≤ p.index := by
  rcases hjk.lt_or_eq with hlt | rfl
  · exact (Merge.rel_of_getElem? h.ascending hlt hq hp).2.le
  · rw [hq] at hp
    rw [Option.some.inj hp]

/-- A file behind the start of a partition is in it or in one after it. -/
theorem exists_partition {j : ℕ} {q : Partition} (hq : l.partitions[j]? = some q)
    (hle : q.index ≤ i) (hi : i < l.files.length) :
    ∃ k p, j ≤ k ∧ l.partitions[k]? = some p ∧ p.index ≤ i ∧ i < l.indexEnd k := by
  induction hn : l.partitions.length - j generalizing j q with
  | zero => exact absurd (List.getElem?_eq_some_iff.1 hq).1 (by omega)
  | succ n ih =>
    cases hnext : l.partitions[j + 1]? with
    | none =>
      refine ⟨j, q, le_rfl, hq, hle, ?_⟩
      rwa [indexEnd, hnext]
    | some p =>
      by_cases hp : p.index ≤ i
      · obtain ⟨k, p', hk, hrest⟩ := ih hnext hp (by omega)
        exact ⟨k, p', by omega, hrest⟩
      · refine ⟨j, q, le_rfl, hq, hle, ?_⟩
        rw [indexEnd, hnext]
        exact not_le.1 hp

theorem indexEnd_le (h : l.Ascending) {j : ℕ} {q : Partition} (hkj : k < j)
    (hq : l.partitions[j]? = some q) : l.indexEnd k ≤ q.index := by
  have hlt := (List.getElem?_eq_some_iff.1 hq).1
  have hnext := getElem?_eq_getElem (Nat.lt_of_le_of_lt hkj hlt)
  rw [indexEnd, hnext]
  exact h.index_le_of_le hkj hnext hq

theorem indexEnd_le_length (h : l.Ascending) (k : ℕ) : l.indexEnd k ≤ l.files.length := by
  rw [indexEnd]
  cases hnext : l.partitions[k + 1]? with
  | none => exact le_rfl
  | some q => exact (h.index_lt q (mem_of_getElem? hnext)).le

theorem mem_overlappingIndexes (h : l.Ascending) : i ∈ l.overlappingIndexes mint maxt ↔
    ∃ k p, l.partitions[k]? = some p ∧ (mint ≤ l.lastTime p ∧ p.boundary.toInt ≤ maxt) ∧
      p.index ≤ i ∧ i < l.indexEnd k := by
  -- a partition that meets the interval lies between the two that the searches find
  have hmem : ∀ stop, (∀ k p, l.partitions[k]? = some p → p.index ≤ i → i < l.indexEnd k →
      (k < l.rightEnd maxt ↔ i < stop)) → stop ≤ l.files.length →
      ∀ p₀, l.partitions[l.left mint]? = some p₀ →
      (i ∈ List.range' p₀.index (stop - p₀.index) ↔ ∃ k p, l.partitions[k]? = some p ∧
        (mint ≤ l.lastTime p ∧ p.boundary.toInt ≤ maxt) ∧ p.index ≤ i ∧ i < l.indexEnd k) := by
    intro stop hstop hlen p₀ hp₀
    rw [mem_range'_1]
    constructor
    · rintro ⟨hle, hlt⟩
      obtain ⟨k, p, hk, hp, hpi, hik⟩ := exists_partition hp₀ hle (by omega)
      exact ⟨k, p, hp, (h.between_iff hp).1 ⟨hk, (hstop k p hp hpi hik).2 (by omega)⟩, hpi, hik⟩
    · rintro ⟨k, p, hp, hmeets, hpi, hik⟩
      obtain ⟨hleft, hright⟩ := (h.between_iff hp).2 hmeets
      have hle := h.index_le_of_le hleft hp₀ hp
      have hlt := (hstop k p hp hpi hik).1 hright
      omega
  rw [overlappingIndexes, overlappingRange]
  split
  · rename_i hnone
    refine ⟨fun hi => absurd hi not_mem_nil, ?_⟩
    rintro ⟨k, p, hp, hmeets, -⟩
    have hleft := ((h.between_iff hp).2 hmeets).1
    have hk := (List.getElem?_eq_some_iff.1 hp).1
    exact absurd (List.getElem?_eq_none_iff.1 hnone) (by omega)
  · rename_i p₀ q hp₀ hq
    refine hmem q.index (fun k p hp hpi hik => ⟨fun hlt => hik.trans_le (h.indexEnd_le hlt hq),
      fun hlt => ?_⟩) (h.index_lt q (mem_of_getElem? hq)).le p₀ hp₀
    by_contra hge
    exact absurd (h.index_le_of_le (not_lt.1 hge) hq hp) (by omega)
  · rename_i p₀ hp₀ hnone
    refine hmem l.files.length (fun k p hp _ hik => ?_) le_rfl p₀ hp₀
    have hk := (List.getElem?_eq_some_iff.1 hp).1
    exact iff_of_true (hk.trans_le (List.getElem?_eq_none_iff.1 hnone))
      (hik.trans_le (h.indexEnd_le_length k))

end Ascending

theorem overlappingPartitions_eq_nil {mint maxt : ℤ} (h : ∀ q ∈ l.partitions, l.lastTime q < mint) :
    l.overlappingPartitions mint maxt = [] := by
  have htest : ∀ q ∈ l.partitions, ¬decide (mint ≤ l.lastTime q) = true := fun q hq htrue =>
    (h q hq).not_ge (of_decide_eq_true htrue)
  refine eq_nil_iff_forall_not_mem.2 fun p hp => ?_
  obtain ⟨k, hk, hleft, -⟩ := mem_drop_take_iff.1 hp
  have hmono : l.partitions.Pairwise fun p q =>
      decide (mint ≤ l.lastTime p) = true → decide (mint ≤ l.lastTime q) = true :=
    pairwise_of_forall_mem_list fun q hq _ _ htrue => absurd htrue (htest q hq)
  exact htest p (mem_of_getElem? hk) ((search_le_iff hmono hk).1 hleft)

theorem lastTime_eq_bmod (l : Level) (p : Partition) :
    l.lastTime p = (l.rightEdge p - 1).bmod (2 ^ 64) := by
  rw [lastTime, BitVec.toInt_sub, BitVec.toInt_add, Int.bmod_sub_bmod, rightEdge]
  rfl

theorem lastTime_eq (hlt : p.boundary.toInt < l.rightEdge p) (hle : l.rightEdge p ≤ 2 ^ 63) :
    l.lastTime p = l.rightEdge p - 1 := by
  have hboundary := p.boundary.le_toInt
  rw [lastTime_eq_bmod]
  exact Int.bmod_eq_of_le (by omega) (by omega)

/-- The sum wraps around, and the partition seems to end before it starts. -/
theorem lastTime_lt (hlt : 2 ^ 63 < l.rightEdge p) : l.lastTime p < p.boundary.toInt := by
  have hboundary := p.boundary.toInt_lt
  have hinterval := (l.interval p).toInt_lt
  rw [lastTime_eq_bmod, Int.bmod_def]
  rw [rightEdge] at hlt ⊢
  split <;> omega

/-- No end of a partition is past the largest `int64_t`. -/
def Fits (l : Level) : Prop :=
  ∀ p ∈ l.partitions, l.rightEdge p ≤ 2 ^ 63

theorem Valid.rightEdge_eq (h : l.Valid) (hp : p ∈ l.partitions) :
    l.rightEdge p = p.boundary.toInt + partitionLength.toInt := by
  obtain ⟨f, hf, -⟩ := h.indexed.starts p hp
  rw [rightEdge, interval, hf, Option.elim_some, (h.filed f (mem_of_getElem? hf)).interval_eq]

theorem Valid.fits (h : l.Valid) (hfiles : ∀ f ∈ l.files,
    f.timeBoundary.toInt + partitionLength.toInt ≤ 2 ^ 63) : l.Fits := by
  intro p hp
  obtain ⟨f, hf, hfb⟩ := h.indexed.starts p hp
  rw [h.rightEdge_eq hp, ← hfb]
  exact hfiles f (mem_of_getElem? hf)

theorem Valid.lastTime_eq (h : l.Valid) (hfit : l.Fits) (hp : p ∈ l.partitions) :
    l.lastTime p = p.boundary.toInt + partitionLength.toInt - 1 := by
  have hlt : p.boundary.toInt < l.rightEdge p := by
    rw [h.rightEdge_eq hp]
    exact Int.lt_add_of_pos_right _ (by decide)
  rw [Level.lastTime_eq hlt (hfit p hp), h.rightEdge_eq hp]

theorem Valid.ascending (h : l.Valid) (hfit : l.Fits) : l.Ascending := by
  refine ⟨fun p hp => ?_, h.indexed.ascending, h.indexed.ascending.imp_of_mem
    fun {p q} hp hq hlt => ?_⟩
  · obtain ⟨f, hf, -⟩ := h.indexed.starts p hp
    exact (List.getElem?_eq_some_iff.1 hf).1
  · have hboundary := hlt.1
    rw [h.lastTime_eq hfit hp, h.lastTime_eq hfit hq]
    omega

/-- Partitions start at multiples of their length, so that one ends before the next one
starts, apart from the last one with a negative start. -/
theorem Valid.rightEdge_le (h : l.Valid) {q : Partition} (hp : p ∈ l.partitions)
    (hq : q ∈ l.partitions) (hlt : p.boundary.toInt < q.boundary.toInt) :
    l.rightEdge p ≤ max q.boundary.toInt partitionLength.toInt := by
  have hdvd : ∀ {p : Partition}, p ∈ l.partitions → 7200000 ∣ p.boundary.toNat := by
    intro p hp
    obtain ⟨f, hf, hfb⟩ := h.indexed.starts p hp
    have hmem := mem_of_getElem? hf
    obtain ⟨e, he⟩ := (h.exact f hmem).exists_mem
    rw [← hfb, ← (h.filed f hmem).boundary_eq e he, toNat_partitionOf]
    exact Nat.dvd_mul_left _ _
  have hlength : partitionLength.toInt = 7200000 := rfl
  have hp' := hdvd hp
  have hq' := hdvd hq
  rw [h.rightEdge_eq hp, hlength]
  rw [BitVec.toInt_eq_toNat_cond, BitVec.toInt_eq_toNat_cond] at hlt ⊢
  omega

theorem Valid.index_between_iff (h : l.Valid) (hp : l.partitions[k]? = some p) {i : ℕ}
    {f : TableFile} (hf : l.files[i]? = some f) :
    p.index ≤ i ∧ i < l.indexEnd k ↔ p.boundary = f.timeBoundary := by
  obtain ⟨q, hq, -, hqb⟩ := h.indexed.covered i f hf
  obtain ⟨j, hj⟩ := mem_iff_getElem?.1 hq
  have hend : i < l.indexEnd k ↔ q.boundary.toInt ≤ p.boundary.toInt := by
    rw [← not_lt, ← h.indexed.lt_iff hp hj, not_lt, ← Nat.lt_succ_iff, indexEnd]
    cases hnext : l.partitions[k + 1]? with
    | none =>
      exact iff_of_true (List.getElem?_eq_some_iff.1 hf).1
        ((List.getElem?_eq_some_iff.1 hj).1.trans_le (List.getElem?_eq_none_iff.1 hnext))
    | some r =>
      rw [Option.map_some, Option.getD_some, ← not_le,
        h.index_le_iff (mem_of_getElem? hnext) hf, ← hqb, not_le]
      exact (h.indexed.lt_iff hj hnext).symm
  rw [h.index_le_iff (mem_of_getElem? hp) hf, hend, ← hqb, ← le_antisymm_iff, BitVec.toInt_inj]

theorem Valid.mem_overlappingFiles (h : l.Valid) (hfit : l.Fits) (mint maxt : ℤ) (f : TableFile) :
    f ∈ l.overlappingFiles mint maxt ↔ f ∈ l.files ∧
      mint ≤ f.timeBoundary.toInt + partitionLength.toInt - 1 ∧
      f.timeBoundary.toInt ≤ maxt := by
  rw [overlappingFiles, mem_filterMap, mem_iff_getElem?]
  constructor
  · rintro ⟨i, hmem, hi⟩
    obtain ⟨k, p, hp, hmeets, hindex⟩ := (h.ascending hfit).mem_overlappingIndexes.1 hmem
    rw [← (h.index_between_iff hp hi).1 hindex, ← h.lastTime_eq hfit (mem_of_getElem? hp)]
    exact ⟨⟨i, hi⟩, hmeets⟩
  · rintro ⟨⟨i, hi⟩, hmeets⟩
    obtain ⟨p, hp, -, hpb⟩ := h.indexed.covered i f hi
    obtain ⟨k, hk⟩ := mem_iff_getElem?.1 hp
    rw [← hpb, ← h.lastTime_eq hfit hp] at hmeets
    exact ⟨i, (h.ascending hfit).mem_overlappingIndexes.2
      ⟨k, p, hk, hmeets, (h.index_between_iff hk hi).2 hpb⟩, hi⟩

theorem Valid.head_boundary_lt (h : l.Valid) {f : TableFile} (hf : l.files[0]? = some f)
    (hp : l.partitions[1]? = some p) : f.timeBoundary.toInt < p.boundary.toInt := by
  rw [← not_le, ← h.index_le_iff (mem_of_getElem? hp) hf]
  have hlen := (List.getElem?_eq_some_iff.1 hp).1
  have hfirst := getElem?_eq_getElem (Nat.zero_lt_of_lt hlen)
  exact not_le.2 (Nat.zero_lt_of_lt
    (Merge.rel_of_getElem? h.indexed.ascending Nat.zero_lt_one hfirst hp).2)

theorem Valid.add_length_lt (h : l.Valid) {f : TableFile} (hf : l.files.head? = some f)
    (hp : l.partitions[1]? = some p) :
    f.timeBoundary.toInt + partitionLength.toInt < 2 ^ 63 := by
  rw [head?_eq_getElem?] at hf
  obtain ⟨q, hq, -, hqb⟩ := h.indexed.covered 0 f hf
  have hlt := h.head_boundary_lt hf hp
  rw [← hqb] at hlt ⊢
  have hle := h.rightEdge_le hq (mem_of_getElem? hp) hlt
  rw [h.rightEdge_eq hq] at hle
  exact hle.trans_lt (max_lt p.boundary.toInt_lt (by decide))

theorem Valid.mem_take_second (h : l.Valid) {f : TableFile} (hf : l.files.head? = some f)
    (hp : l.partitions[1]? = some p) (g : TableFile) : g ∈ l.files.take p.index ↔
      g ∈ l.files ∧ g.timeBoundary = f.timeBoundary := by
  have hzero : ∀ (i : ℕ) (g : TableFile), l.files[i]? = some g →
      g.timeBoundary.toInt < p.boundary.toInt →
      l.partitions[0]?.map Partition.boundary = some g.timeBoundary := by
    intro i g hg hlt
    obtain ⟨q, hq, -, hqb⟩ := h.indexed.covered i g hg
    obtain ⟨k, hk⟩ := mem_iff_getElem?.1 hq
    rw [← hqb, ← h.indexed.lt_iff hk hp, Nat.lt_one_iff] at hlt
    rw [← hlt, hk, Option.map_some, hqb]
  rw [head?_eq_getElem?] at hf
  have hflt := h.head_boundary_lt hf hp
  rw [h.mem_take_index (mem_of_getElem? hp), mem_iff_getElem?]
  constructor
  · rintro ⟨⟨i, hi⟩, hlt⟩
    exact ⟨⟨i, hi⟩, Option.some.inj ((hzero i g hi hlt).symm.trans (hzero 0 f hf hflt))⟩
  · rintro ⟨hg, hgb⟩
    exact ⟨hg, hgb ▸ hflt⟩

end Level

end Partitions

end PromTCS
