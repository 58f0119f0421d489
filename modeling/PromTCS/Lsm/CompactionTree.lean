import PromTCS.Lib.Run
import PromTCS.Lsm.Version

/-!
# Compaction

`PickCompaction` takes the files of the oldest partition of level 0, once there are more
than `L0_MERGE_FACTOR` partitions, and the files of level 1 whose partitions they meet.
`DoCompactionWorkTree` merges them and writes the entries one after another to output
files: it keeps a list of output files for every partition, and closes the last one of a
partition when it is full and the source and the metric have just changed.

A file counts as full from its builder's size, which is a function of the entries here.
-/

namespace PromTCS

open List TableFile Entry

/-- `CompactionState::Output` with its builder; `building` is false when the builder has
been finished. The keys are `none` after `Clear`. -/
structure Output where
  number : ℕ
  smallest : Option InternalKey
  largest : Option InternalKey
  timeBoundary : Word
  timeInterval : Word
  entries : List Entry
  building : Bool
deriving DecidableEq, Repr

namespace Output

/-- The output that `OpenCompactionOutputFile` inserts. -/
def empty (number : ℕ) (boundary interval : Word) : Output :=
  ⟨number, none, none, boundary, interval, [], true⟩

/-- The file that `InstallCompactionResults` adds for the output. -/
def file (o : Output) : Option TableFile := do
  let smallest ← o.smallest
  let largest ← o.largest
  return ⟨o.number, smallest, largest, o.timeBoundary, o.timeInterval, o.entries⟩

/-- The output whose file is `f`. -/
def ofFile (building : Bool) (f : TableFile) : Output :=
  ⟨f.number, some f.smallest, some f.largest, f.timeBoundary, f.timeInterval, f.entries, building⟩

@[simp] theorem file_ofFile (building : Bool) (f : TableFile) :
    (ofFile building f).file = some f := rfl

end Output

open Output

/-- The output files of a partition, with `open_files_` and `set_smallest_key_`. -/
structure OutputPartition where
  outputs : List Output
  opened : Bool
  smallestSet : Bool
deriving DecidableEq, Repr

namespace OutputPartition

/-- The time lies in the partition of `outputs[i][0]`. -/
def holds (p : OutputPartition) (t : Word) : Bool :=
  p.outputs.head?.any fun o =>
    decide (o.timeBoundary.toInt ≤ t.toInt ∧ t.toInt < (o.timeBoundary + o.timeInterval).toInt)

def setBack (p : OutputPartition) (o : Output) : OutputPartition :=
  { p with outputs := p.outputs.dropLast ++ [o] }

end OutputPartition

open OutputPartition

/-- `outputs`, `builders` and the flags of a `CompactionState`. -/
abbrev OutputPartitions := List OutputPartition

namespace OutputPartitions

variable (ps : OutputPartitions) (t : Word)

def partitionFileOpened : Bool :=
  ps.any fun p => p.holds t && p.opened

/-- `none` is the result -1. -/
def getPartitionIdx : Option ℕ :=
  ps.findIdx? fun p => p.holds t

def closePartitionFile : OutputPartitions :=
  match ps.getPartitionIdx t with
  | none => ps
  | some i => ps.modify i fun p => { p with opened := false, smallestSet := false }

/-- `insert`, which keeps the partitions in the order of their boundaries. -/
def insert (o : Output) : OutputPartitions → OutputPartitions
  | [] => [⟨[o], true, false⟩]
  | p :: ps =>
    if p.outputs.head?.any fun o₀ => decide (o.timeBoundary.toInt ≤ o₀.timeBoundary.toInt) then
      if p.outputs.head?.any fun o₀ => o₀.timeBoundary == o.timeBoundary then
        ⟨p.outputs ++ [o], true, false⟩ :: ps
      else ⟨[o], true, false⟩ :: p :: ps
    else p :: insert o ps

def back : Option (ℕ × OutputPartition × Output) := do
  let i ← ps.getPartitionIdx t
  let p ← ps[i]?
  let o ← p.outputs.getLast?
  if o.building then some (i, p, o) else none

def closeIfFull (fileSize : List Entry → ℕ) (maxOutputFileSize : ℕ) (ps : OutputPartitions)
    (t : Word) : Option OutputPartitions := do
  let (i, _, o) ← ps.back t
  if maxOutputFileSize ≤ fileSize o.entries then
    return (ps.closePartitionFile t).modify i fun p => p.setBack { o with building := false }
  else return ps

def addEntry (ps : OutputPartitions) (e : Entry) : Option OutputPartitions := do
  let (i, p, o) ← ps.back e.time
  let smallest := if p.smallestSet then o.smallest else some e.ikey
  let o := { o with smallest := smallest, largest := some e.ikey, entries := o.entries ++ [e] }
  return ps.set i { p.setBack o with smallestSet := true }

end OutputPartitions

open OutputPartitions

/-- The variables of the loop of `DoCompactionWorkTree`; `next` is the next file
number. -/
structure CompactionLoop where
  partitions : OutputPartitions
  next : ℕ
  lastSgid : Word
  lastMid : BitVec 16
  currentBoundary : Word
deriving DecidableEq, Repr

namespace CompactionLoop

/-- The largest `int64_t`, with which `current_boundary` starts. -/
def maxBoundary : Word := 0x7fffffffffffffff#64

def init (next : ℕ) : CompactionLoop :=
  ⟨[], next, -1#64, -1#16, maxBoundary⟩

/-- The test that comes before a file is closed. The comparison of `last_mid`, which has
16 bits, with the largest `uint64_t` always holds. -/
def Changed (s : CompactionLoop) (interval : Word) (k : TreeKey) : Prop :=
  (k.sgid ≠ s.lastSgid ∧ s.lastSgid ≠ -1#64 ∧ k.mid ≠ s.lastMid) ∨
    (s.currentBoundary ≠ partitionOf interval k.t ∧ s.currentBoundary ≠ maxBoundary)

instance (s : CompactionLoop) (interval : Word) (k : TreeKey) :
    Decidable (s.Changed interval k) :=
  inferInstanceAs (Decidable (_ ∨ _))

def closeFile (fileSize : List Entry → ℕ) (maxOutputFileSize : ℕ) (interval : Word)
    (s : CompactionLoop) (e : Entry) : Option OutputPartitions :=
  if s.Changed interval e.ikey.user then
    s.partitions.closeIfFull fileSize maxOutputFileSize e.time
  else some s.partitions

def openFile (ps : OutputPartitions) (next : ℕ) (interval t : Word) :
    Option (OutputPartitions × ℕ) :=
  if ps.partitionFileOpened t then some (ps, next)
  else do
    let ps := ps.insert (Output.empty next (partitionOf interval t) interval)
    let i ← ps.getPartitionIdx t
    return (ps.modify i fun p => { p with smallestSet := false }, next + 1)

def step (fileSize : List Entry → ℕ) (maxOutputFileSize : ℕ) (interval : Word)
    (s : CompactionLoop) (e : Entry) : Option CompactionLoop := do
  let ps ← s.closeFile fileSize maxOutputFileSize interval e
  let (ps, next) ← openFile ps s.next interval e.time
  let ps ← ps.addEntry e
  return ⟨ps, next, e.ikey.user.sgid, e.ikey.user.mid, partitionOf interval e.time⟩

end CompactionLoop

open CompactionLoop

/-- `DoCompactionWorkTree`: the output files and the next file number. The inputs are
merged one by one, as `MakeInputIterator` does. -/
def doCompactionWorkTree (fileSize : List Entry → ℕ) (maxOutputFileSize : ℕ) (next : ℕ)
    (interval : Word) (inputs : List TableFile) : Option (List TableFile × ℕ) := do
  let input := Merge.mergeAll ikey (inputs.map TableFile.entries)
  let s ← input.foldlM (step fileSize maxOutputFileSize interval)
    (CompactionLoop.init next)
  let files ← (s.partitions.flatMap outputs).mapM file
  return (files, s.next)

/-- The time lies in the partition, both as the boundary of its own is computed and as
`int64_t` values compare. A partition with an end past the largest one holds no time. -/
structure LiesIn (interval b t : Word) : Prop where
  partitionOf_eq : partitionOf interval t = b
  le : b.toInt ≤ t.toInt
  lt : t.toInt < (b + interval).toInt

instance (interval b t : Word) : Decidable (LiesIn interval b t) :=
  decidable_of_iff (partitionOf interval t = b ∧ b.toInt ≤ t.toInt ∧
      t.toInt < (b + interval).toInt)
    ⟨fun h => ⟨h.1, h.2.1, h.2.2⟩, fun h => ⟨h.partitionOf_eq, h.le, h.lt⟩⟩

namespace OutputPartitions

variable {interval b t : Word} {os : List Output}

theorem holds_of_liesIn (hne : os ≠ [])
    (hos : ∀ o ∈ os, o.timeBoundary = b ∧ o.timeInterval = interval)
    (ht : LiesIn interval b t) (opened smallestSet : Bool) :
    holds ⟨os, opened, smallestSet⟩ t = true := by
  cases os with
  | nil => exact absurd rfl hne
  | cons o os =>
    obtain ⟨hb, hi⟩ := hos o mem_cons_self
    rw [holds, head?_cons, Option.any_some, hb, hi]
    exact decide_eq_true ⟨ht.le, ht.lt⟩

variable {p : OutputPartition} {o : Output}

theorem getPartitionIdx_single (hp : p.holds t = true) : getPartitionIdx [p] t = some 0 := by
  simp [getPartitionIdx, hp]

theorem back_single (hp : p.holds t = true) (ho : p.outputs.getLast? = some o)
    (hbuilding : o.building = true) : back [p] t = some (0, p, o) := by
  simp [back, getPartitionIdx_single hp, ho, hbuilding]

theorem partitionFileOpened_single (hp : p.holds t = true) :
    partitionFileOpened [p] t = p.opened := by
  simp [partitionFileOpened, hp]

theorem partitionFileOpened_of_closed (smallestSet : Bool) :
    partitionFileOpened [⟨os, false, smallestSet⟩] t = false := by
  simp [partitionFileOpened]

theorem closeIfFull_single {fileSize : List Entry → ℕ} {maxOutputFileSize : ℕ}
    {opened smallestSet : Bool}
    (hp : holds ⟨os ++ [o], opened, smallestSet⟩ t = true)
    (hbuilding : o.building = true) (hfull : maxOutputFileSize ≤ fileSize o.entries) :
    closeIfFull fileSize maxOutputFileSize [⟨os ++ [o], opened, smallestSet⟩] t =
      some [⟨os ++ [{ o with building := false }], false, false⟩] := by
  rw [closeIfFull, back_single hp getLast?_concat hbuilding, closePartitionFile,
    getPartitionIdx_single hp]
  simp [hfull, setBack]

theorem insert_single (hne : os ≠ []) (hos : ∀ o' ∈ os, o'.timeBoundary = o.timeBoundary)
    (opened smallestSet : Bool) :
    insert o [⟨os, opened, smallestSet⟩] = [⟨os ++ [o], true, false⟩] := by
  cases os with
  | nil => exact absurd rfl hne
  | cons o' os => simp [insert, hos o' mem_cons_self]

theorem addEntry_single (files : List Output) (f : TableFile) {e : Entry}
    (hp : holds ⟨files ++ [ofFile true f], true, true⟩ e.time = true) :
    addEntry [⟨files ++ [ofFile true f], true, true⟩] e =
      some [⟨files ++ [ofFile true (f.add e)], true, true⟩] := by
  rw [addEntry, back_single hp getLast?_concat rfl]
  simp [setBack, ofFile, TableFile.add]

theorem addEntry_empty (files : List Output) (next : ℕ) {e : Entry}
    (he : partitionOf interval e.time = b)
    (hp : holds ⟨files ++ [Output.empty next b interval], true, false⟩ e.time =
      true) :
    addEntry [⟨files ++ [Output.empty next b interval], true, false⟩] e =
      some [⟨files ++ [ofFile true (start next interval e)], true, true⟩] := by
  rw [addEntry, back_single hp getLast?_concat rfl]
  simp [setBack, ofFile, Output.empty, start, he]

end OutputPartitions

namespace CompactionLoop

/-- The loop after the entry `e`, with one partition whose last file is still open. -/
def working (b : Word) (next : ℕ) (files : List TableFile) (f : TableFile) (e : Entry) :
    CompactionLoop where
  partitions := [⟨files.map (ofFile false) ++ [ofFile true f], true, true⟩]
  next := next
  lastSgid := e.ikey.user.sgid
  lastMid := e.ikey.user.mid
  currentBoundary := b

variable {fileSize : List Entry → ℕ} {maxOutputFileSize : ℕ} {interval b : Word}
  {e : Entry}

theorem step_eq {s : CompactionLoop} {ps ps' ps'' : OutputPartitions} {next : ℕ}
    (hclose : s.closeFile fileSize maxOutputFileSize interval e = some ps)
    (hopen : openFile ps s.next interval e.time = some (ps', next))
    (hadd : ps'.addEntry e = some ps'') :
    step fileSize maxOutputFileSize interval s e =
      some ⟨ps'', next, e.ikey.user.sgid, e.ikey.user.mid, partitionOf interval e.time⟩ := by
  simp [step, hclose, hopen, hadd]

theorem step_of_closed {s : CompactionLoop} {ps : OutputPartitions} {files : List TableFile}
    (hclose : s.closeFile fileSize maxOutputFileSize interval e = some ps)
    (hopened : ps.partitionFileOpened e.time = false) (hinsert : ps.insert (Output.empty s.next b
      interval) = [⟨files.map (ofFile false) ++ [Output.empty s.next b interval], true,
      false⟩]) (hfiles : ∀ f ∈ files, f.timeBoundary = b ∧ f.timeInterval = interval)
    (he : LiesIn interval b e.time) :
    step fileSize maxOutputFileSize interval s e =
      some (working b (s.next + 1) files (start s.next interval e) e) := by
  have houts : ∀ o ∈ files.map (ofFile false) ++ [Output.empty s.next b interval],
      o.timeBoundary = b ∧ o.timeInterval = interval := by
    rw [forall_mem_append, forall_mem_map, forall_mem_singleton]
    exact ⟨hfiles, rfl, rfl⟩
  have hholds := holds_of_liesIn (by simp) houts he true false
  have hopen : openFile ps s.next interval e.time =
      some ([⟨files.map (ofFile false) ++ [Output.empty s.next b interval], true, false⟩],
        s.next + 1) := by
    simp [openFile, hopened, he.partitionOf_eq, hinsert,
      getPartitionIdx_single hholds]
  rw [step_eq hclose hopen (addEntry_empty _ _ he.partitionOf_eq hholds),
    he.partitionOf_eq]
  rfl

theorem step_init (fileSize : List Entry → ℕ) (maxOutputFileSize next : ℕ)
    (he : LiesIn interval b e.time) :
    step fileSize maxOutputFileSize interval (init next) e =
      some (working b (next + 1) [] (start next interval e) e) := by
  have hunchanged : ¬(init next).Changed interval e.ikey.user := by
    simp [Changed, init]
  exact step_of_closed (if_neg hunchanged) rfl rfl (nofun) he

theorem step_working (fileSize : List Entry → ℕ) (maxOutputFileSize next : ℕ)
    {files : List TableFile} {f : TableFile} (d : Entry)
    (hfiles : ∀ g ∈ files ++ [f], g.timeBoundary = b ∧ g.timeInterval = interval)
    (he : LiesIn interval b e.time) :
    step fileSize maxOutputFileSize interval (working b next files f d) e =
        some (working b next files (f.add e) e) ∨
      d.ikey.user.sgid ≠ e.ikey.user.sgid ∧
        step fileSize maxOutputFileSize interval (working b next files f d) e =
          some (working b (next + 1) (files ++ [f]) (start next interval e) e) := by
  have houts : ∀ o ∈ files.map (ofFile false) ++ [ofFile true f],
      o.timeBoundary = b ∧ o.timeInterval = interval := by
    rw [forall_mem_append, forall_mem_singleton] at hfiles ⊢
    rw [forall_mem_map]
    exact hfiles
  have hholds := holds_of_liesIn (by simp) houts he true true
  have hkeep : (working b next files f d).partitions.addEntry e =
      some (working b next files (f.add e) e).partitions :=
    addEntry_single _ _ hholds
  have hopened : openFile (working b next files f d).partitions next interval e.time =
      some ((working b next files f d).partitions, next) := by
    simp [openFile, working, partitionFileOpened_single hholds]
  have hadd : (working b next files f d).closeFile fileSize maxOutputFileSize interval e =
      some (working b next files f d).partitions →
      step fileSize maxOutputFileSize interval (working b next files f d) e =
        some (working b next files (f.add e) e) := fun h => by
    rw [step_eq h hopened hkeep, he.partitionOf_eq]
    rfl
  by_cases hchanged : (working b next files f d).Changed interval e.ikey.user
  · have hback : (working b next files f d).partitions.back e.time =
        some (0, _, ofFile true f) :=
      back_single hholds getLast?_concat rfl
    by_cases hfull : maxOutputFileSize ≤ fileSize f.entries
    · have hsgid : d.ikey.user.sgid ≠ e.ikey.user.sgid := by
        rcases hchanged with ⟨hne, -⟩ | ⟨hne, -⟩
        · exact Ne.symm hne
        · exact absurd he.partitionOf_eq.symm hne
      refine Or.inr ⟨hsgid, ?_⟩
      have hclose : (working b next files f d).closeFile fileSize maxOutputFileSize interval e =
          some [⟨(files ++ [f]).map (ofFile false), false, false⟩] := by
        rw [closeFile, if_pos hchanged, map_append, map_singleton]
        exact closeIfFull_single hholds rfl hfull
      have hboundary : ∀ o ∈ (files ++ [f]).map (ofFile false), o.timeBoundary = b := by
        rw [forall_mem_map]
        exact fun g hg => (hfiles g hg).1
      exact step_of_closed hclose (partitionFileOpened_of_closed false)
        (insert_single (by simp) hboundary false false) hfiles he
    · refine Or.inl (hadd ?_)
      rw [closeFile, if_pos hchanged, closeIfFull, hback]
      simp [ofFile, hfull]
  · exact Or.inl (hadd (if_neg hchanged))

end CompactionLoop

def TableFile.Before (f g : TableFile) : Prop :=
  ∀ d ∈ f.entries, ∀ e ∈ g.entries, d.ikey < e.ikey ∧ ¬d.ikey.user.SameSeries e.ikey.user

/-- The output files of one partition for the entries `done`. -/
structure Compacted (interval b : Word) (first : ℕ) (done : List Entry)
    (files : List TableFile) : Prop where
  entries_eq : files.flatMap TableFile.entries = done
  numbers : files.map TableFile.number = List.range' first files.length
  partition_eq : ∀ f ∈ files, f.timeBoundary = b ∧ f.timeInterval = interval
  smallest_eq : ∀ f ∈ files, f.entries.head?.map ikey = some f.smallest
  largest_eq : ∀ f ∈ files, f.entries.getLast?.map ikey = some f.largest
  before : files.Pairwise TableFile.Before

namespace Compacted

variable {interval b : Word} {first : ℕ} {done : List Entry} {files : List TableFile}

theorem nil (interval b : Word) (first : ℕ) : Compacted interval b first [] [] where
  entries_eq := rfl
  numbers := rfl
  partition_eq := nofun
  smallest_eq := nofun
  largest_eq := nofun
  before := List.Pairwise.nil

variable {f : TableFile} {e : Entry}

theorem mem_done (h : Compacted interval b first done files) (hf : f ∈ files) (he : e ∈ f.entries) :
    e ∈ done := by
  rw [← h.entries_eq]
  exact mem_flatMap.2 ⟨f, hf, he⟩

theorem after_of_le {d x : Entry} (hdx : d.ikey < x.ikey ∧ ¬d.ikey.user.SameSeries x.ikey.user)
    (hxe : x.ikey ≤ e.ikey) : d.ikey < e.ikey ∧ ¬d.ikey.user.SameSeries e.ikey.user :=
  ⟨hdx.1.trans_le hxe, fun hsame => hdx.2 (TreeKey.sameSeries_of_between
    (InternalKey.user_le_of_le hdx.1.le) (InternalKey.user_le_of_le hxe) hsame)⟩

theorem add (h : Compacted interval b first done (files ++ [f]))
    (hsorted : Merge.Sorted ikey (done ++ [e])) :
    Compacted interval b first (done ++ [e]) (files ++ [f.add e]) := by
  obtain ⟨-, -, hle⟩ := pairwise_append.1 hsorted
  obtain ⟨hpairs, -, hlast⟩ := pairwise_append.1 h.before
  have hf : f ∈ files ++ [f] := mem_append_right _ (mem_singleton_self f)
  obtain ⟨x, hx, hkey⟩ := Option.map_eq_some_iff.1 (h.smallest_eq f hf)
  have hold : ∀ g ∈ files, g ∈ files ++ [f] := fun g hg => mem_append_left _ hg
  constructor
  · rw [← h.entries_eq]
    simp [TableFile.add]
  · have hnumbers := h.numbers
    rw [map_append, length_append] at hnumbers ⊢
    exact hnumbers
  · rw [forall_mem_append, forall_mem_singleton]
    exact ⟨fun g hg => h.partition_eq g (hold g hg), h.partition_eq f hf⟩
  · rw [forall_mem_append, forall_mem_singleton]
    refine ⟨fun g hg => h.smallest_eq g (hold g hg), ?_⟩
    rw [TableFile.add, head?_append, hx, Option.some_or, Option.map_some, hkey]
  · rw [forall_mem_append, forall_mem_singleton]
    refine ⟨fun g hg => h.largest_eq g (hold g hg), ?_⟩
    rw [TableFile.add, getLast?_concat, Option.map_some]
  · refine pairwise_append.2 ⟨hpairs, pairwise_singleton _ _, fun g hg g' hg' => ?_⟩
    rw [mem_singleton.1 hg']
    have hgf := hlast g hg f (mem_singleton_self f)
    intro d hd e' he'
    rcases mem_append.1 he' with he' | he'
    · exact hgf d hd e' he'
    · rw [mem_singleton.1 he']
      -- the first entry of the last file lies between
      exact after_of_le (hgf d hd x (mem_of_head? hx))
        (hle x (h.mem_done hf (mem_of_head? hx)) e (mem_singleton_self e))

theorem start (h : Compacted interval b first done files) (he : partitionOf interval e.time = b)
    (hsorted : Merge.Sorted ikey (done ++ [e]))
    (hsgid : ∀ d, done.getLast? = some d → d.ikey.user.sgid ≠ e.ikey.user.sgid) :
    Compacted interval b first (done ++ [e])
      (files ++ [TableFile.start (first + files.length) interval e]) := by
  obtain ⟨hdone, -, hle⟩ := pairwise_append.1 hsorted
  constructor
  · rw [← h.entries_eq]
    simp [TableFile.start]
  · rw [map_append, h.numbers, length_append, length_singleton,
      range'_concat, Nat.one_mul]
    rfl
  · rw [forall_mem_append, forall_mem_singleton]
    exact ⟨h.partition_eq, he, rfl⟩
  · rw [forall_mem_append, forall_mem_singleton]
    exact ⟨h.smallest_eq, rfl⟩
  · rw [forall_mem_append, forall_mem_singleton]
    exact ⟨h.largest_eq, rfl⟩
  · refine pairwise_append.2 ⟨h.before, pairwise_singleton _ _, fun g hg g' hg' => ?_⟩
    rw [mem_singleton.1 hg']
    intro d hd e' he'
    rw [mem_singleton.1 he']
    have hmem := h.mem_done hg hd
    have hx := getLast?_eq_some_getLast (ne_nil_of_mem hmem)
    generalize done.getLast _ = x at hx
    have hdx : d.ikey ≤ x.ikey := by
      obtain ⟨ds, rfl⟩ := getLast?_eq_some_iff.1 hx
      rcases mem_append.1 hmem with hd | hd
      · exact (pairwise_append.1 hdone).2.2 d hd x (mem_singleton_self x)
      · rw [mem_singleton.1 hd]
    have hxe := hle x (mem_of_getLast? hx) e (mem_singleton_self e)
    have hne : x.ikey ≠ e.ikey := fun heq => hsgid x hx (by rw [heq])
    refine ⟨hdx.trans_lt (hxe.lt_of_ne hne), fun hsame => hsgid x hx ?_⟩
    -- an entry between two of one series belongs to it
    rw [← hsame.1]
    exact (TreeKey.sameSeries_of_between (InternalKey.user_le_of_le hdx)
      (InternalKey.user_le_of_le hxe) hsame).1.symm

theorem filed (h : Compacted partitionLength b first done files)
    (hdone : ∀ e ∈ done, LiesIn partitionLength b e.time) (hf : f ∈ files) : f.Filed where
  interval_eq := (h.partition_eq f hf).2
  boundary_eq := fun e he =>
    (hdone e (h.mem_done hf he)).partitionOf_eq.trans (h.partition_eq f hf).1.symm

theorem exact (h : Compacted interval b first done files) (hsorted : Merge.Sorted ikey done)
    (hf : f ∈ files) : f.Exact where
  smallest_eq := h.smallest_eq f hf
  largest_eq := h.largest_eq f hf
  sorted := by
    rw [← h.entries_eq] at hsorted
    exact (pairwise_flatMap.1 hsorted).1 f hf

theorem largest_lt_smallest (h : Compacted interval b first done files) :
    files.Pairwise fun f g => f.largest < g.smallest := by
  refine h.before.imp_of_mem fun {f g} hf hg hfg => ?_
  obtain ⟨d, hd, hdkey⟩ := Option.map_eq_some_iff.1 (h.largest_eq f hf)
  obtain ⟨e, he, hekey⟩ := Option.map_eq_some_iff.1 (h.smallest_eq g hg)
  rw [← hdkey, ← hekey]
  exact (hfg d (mem_of_getLast? hd) e (mem_of_head? he)).1

end Compacted

section Loop

variable (fileSize : List Entry → ℕ) (maxOutputFileSize : ℕ) {interval b : Word} {first : ℕ}

theorem foldlM_working {done iter : List Entry} {files : List TableFile} {f : TableFile}
    {d : Entry} (h : Compacted interval b first done (files ++ [f]))
    (hd : done.getLast? = some d) (hsorted : Merge.Sorted ikey (done ++ iter))
    (hiter : ∀ e ∈ iter, LiesIn interval b e.time) :
    ∃ files' f' d', iter.foldlM (step fileSize maxOutputFileSize interval)
        (working b (first + files.length + 1) files f d) =
      some (working b (first + files'.length + 1) files' f' d') ∧
      Compacted interval b first (done ++ iter) (files' ++ [f']) := by
  induction iter generalizing done files f d with
  | nil => exact ⟨files, f, d, rfl, by rwa [append_nil]⟩
  | cons e iter ih =>
    rw [forall_mem_cons] at hiter
    rw [append_cons] at hsorted ⊢
    rw [foldlM_cons]
    have hsorted' := (pairwise_append.1 hsorted).1
    rcases step_working fileSize maxOutputFileSize (first + files.length + 1) d
      h.partition_eq hiter.1 with hstep | ⟨hsgid, hstep⟩
    · rw [hstep]
      exact ih (h.add hsorted') getLast?_concat hsorted hiter.2
    · rw [hstep]
      have hnew := h.start hiter.1.partitionOf_eq hsorted' fun x hx => by
        rw [hd] at hx
        rwa [← Option.some.inj hx]
      have hih := ih hnew getLast?_concat hsorted hiter.2
      rw [length_append, length_singleton] at hih
      exact hih

theorem mapM_file_working (files : List TableFile) (f : TableFile) :
    (files.map (ofFile false) ++ [ofFile true f]).mapM file =
      some (files ++ [f]) := by
  induction files with
  | nil => rfl
  | cons g files ih =>
    rw [map_cons, cons_append, mapM_cons, file_ofFile, ih]
    rfl

theorem exists_foldlM_init (next : ℕ) {iter : List Entry}
    (hsorted : Merge.Sorted ikey iter) (hiter : ∀ e ∈ iter, LiesIn interval b e.time) :
    ∃ s files, iter.foldlM (step fileSize maxOutputFileSize interval)
        (CompactionLoop.init next) = some s ∧ s.next = next + files.length ∧
      (s.partitions.flatMap outputs).mapM file = some files ∧
      Compacted interval b next iter files := by
  cases iter with
  | nil => exact ⟨_, [], rfl, rfl, rfl, Compacted.nil interval b next⟩
  | cons e iter =>
    rw [forall_mem_cons] at hiter
    have hfirst := (Compacted.nil interval b next).start hiter.1.partitionOf_eq
      (pairwise_singleton _ e) fun _ h => nomatch h
    obtain ⟨files, f, d, hrun, hdone⟩ := foldlM_working fileSize maxOutputFileSize
      hfirst getLast?_singleton hsorted hiter.2
    refine ⟨working b (next + files.length + 1) files f d, files ++ [f], ?_, ?_,
      ?_, hdone⟩
    · rw [foldlM_cons, step_init fileSize maxOutputFileSize next hiter.1]
      exact hrun
    · rw [length_append]
      rfl
    · rw [working, flatMap_singleton]
      exact mapM_file_working files f

theorem mem_mergeAll_iff {inputs : List TableFile} {e : Entry} :
    e ∈ Merge.mergeAll ikey (inputs.map TableFile.entries) ↔
      ∃ f ∈ inputs, e ∈ f.entries := by
  rw [(Merge.perm_mergeAll _).mem_iff, ← flatMap_def, mem_flatMap]

theorem exists_compacted (next : ℕ) {inputs : List TableFile}
    (hsorted : ∀ f ∈ inputs, Merge.Sorted ikey f.entries)
    (hinputs : ∀ f ∈ inputs, ∀ e ∈ f.entries, LiesIn interval b e.time) :
    ∃ files, doCompactionWorkTree fileSize maxOutputFileSize next interval inputs =
        some (files, next + files.length) ∧
      Compacted interval b next (Merge.mergeAll ikey (inputs.map TableFile.entries))
        files := by
  have hmerged : Merge.Sorted ikey
      (Merge.mergeAll ikey (inputs.map TableFile.entries)) :=
    Merge.sorted_mergeAll (forall_mem_map.2 hsorted)
  have hlies : ∀ e ∈ Merge.mergeAll ikey (inputs.map TableFile.entries),
      LiesIn interval b e.time := by
    intro e he
    obtain ⟨f, hf, hef⟩ := mem_mergeAll_iff.1 he
    exact hinputs f hf e hef
  obtain ⟨s, files, hrun, hnext, hfiles, hdone⟩ :=
    exists_foldlM_init fileSize maxOutputFileSize next hmerged hlies
  refine ⟨files, ?_, hdone⟩
  simp [doCompactionWorkTree, hrun, hfiles, hnext]

end Loop

end PromTCS
