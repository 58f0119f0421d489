import PromTCS.Lsm.InternalKey
import Mathlib.Data.BitVec

/-!
# Table files

A table file holds entries of one time partition, in the order of their internal keys,
together with the keys of its first and last entry. `BuildTablesTree` makes the files
of a memtable, one for every partition of the key times.

Times are compared as `int64_t`; the right edge `time_boundary + time_interval` of a
partition is taken in `ℤ`, since a sum that leaves `int64_t` is undefined in the source.
-/

namespace PromTCS

open List

/-- `key_time / partition_length * partition_length`. The division is one of unsigned
numbers, since `key_time` is. -/
def partitionOf (interval t : Word) : Word :=
  t / interval * interval

theorem toNat_partitionOf (interval t : Word) :
    (partitionOf interval t).toNat = t.toNat / interval.toNat * interval.toNat := by
  rw [partitionOf, BitVec.toNat_mul, BitVec.toNat_udiv,
    Nat.mod_eq_of_lt ((Nat.div_mul_le_self _ _).trans_lt t.isLt)]

theorem partitionOf_ne (t : Word) : partitionOf partitionLength t ≠ -1#64 := by
  intro h
  have hnat := congrArg BitVec.toNat h
  rw [toNat_partitionOf, show (-1#64 : Word).toNat = 18446744073709551615 from rfl,
    show partitionLength.toNat = 7200000 from rfl] at hnat
  omega

def Entry.time (e : Entry) : Word :=
  e.ikey.user.t

/-- A `FileMetaData` and the entries of the file. -/
structure TableFile where
  number : ℕ
  smallest : InternalKey
  largest : InternalKey
  timeBoundary : Word
  timeInterval : Word
  entries : List Entry
deriving DecidableEq, Repr

namespace TableFile

/-- What `BySmallestTime` compares. -/
def timeKey (f : TableFile) : ℤ ×ₗ ℕ :=
  toLex (f.timeBoundary.toInt, f.number)

def timeEnd (f : TableFile) : Word :=
  f.timeBoundary + f.timeInterval

variable {f : TableFile}

theorem boundary_le_of_timeKey_le {g : TableFile} (h : f.timeKey ≤ g.timeKey) :
    f.timeBoundary.toInt ≤ g.timeBoundary.toInt := by
  rcases Prod.Lex.toLex_le_toLex.1 h with hlt | ⟨heq, -⟩
  · exact hlt.le
  · exact heq.le

structure Exact (f : TableFile) : Prop where
  smallest_eq : f.entries.head?.map Entry.ikey = some f.smallest
  largest_eq : f.entries.getLast?.map Entry.ikey = some f.largest
  sorted : Merge.Sorted Entry.ikey f.entries

theorem Exact.smallest_le (h : f.Exact) {e : Entry} (he : e ∈ f.entries) : f.smallest ≤ e.ikey := by
  obtain ⟨d, hd, hkey⟩ := Option.map_eq_some_iff.1 h.smallest_eq
  obtain ⟨es, hes⟩ := head?_eq_some_iff.1 hd
  have hsorted := h.sorted
  rw [hes] at he hsorted
  rw [← hkey]
  rcases mem_cons.1 he with rfl | he
  · exact le_rfl
  · exact rel_of_pairwise_cons hsorted he

theorem Exact.le_largest (h : f.Exact) {e : Entry} (he : e ∈ f.entries) : e.ikey ≤ f.largest := by
  obtain ⟨d, hd, hkey⟩ := Option.map_eq_some_iff.1 h.largest_eq
  obtain ⟨es, hes⟩ := getLast?_eq_some_iff.1 hd
  have hsorted := h.sorted
  rw [hes] at he hsorted
  rw [← hkey]
  rcases mem_append.1 he with he | he
  · exact (pairwise_append.1 hsorted).2.2 e he d (mem_singleton_self d)
  · rw [mem_singleton.1 he]

theorem Exact.exists_largest (h : f.Exact) : ∃ e ∈ f.entries, e.ikey = f.largest := by
  obtain ⟨e, he, hkey⟩ := Option.map_eq_some_iff.1 h.largest_eq
  exact ⟨e, mem_of_getLast? he, hkey⟩

theorem Exact.smallest_le_largest (h : f.Exact) : f.smallest ≤ f.largest := by
  obtain ⟨e, he, hkey⟩ := h.exists_largest
  rw [← hkey]
  exact h.smallest_le he

theorem Exact.exists_mem (h : f.Exact) : ∃ e, e ∈ f.entries := by
  obtain ⟨e, he, -⟩ := Option.map_eq_some_iff.1 h.smallest_eq
  exact ⟨e, mem_of_head? he⟩

structure Filed (f : TableFile) : Prop where
  interval_eq : f.timeInterval = partitionLength
  boundary_eq : ∀ e ∈ f.entries, partitionOf partitionLength e.time = f.timeBoundary

theorem timeBoundary_ne (hf : f.Filed) (hx : f.Exact) : f.timeBoundary ≠ -1#64 := by
  obtain ⟨e, he⟩ := hx.exists_mem
  rw [← hf.boundary_eq e he]
  exact partitionOf_ne e.time

def add (f : TableFile) (e : Entry) : TableFile :=
  { f with largest := e.ikey, entries := f.entries ++ [e] }

def start (number : ℕ) (interval : Word) (e : Entry) : TableFile where
  number := number
  smallest := e.ikey
  largest := e.ikey
  timeBoundary := partitionOf interval e.time
  timeInterval := interval
  entries := [e]

end TableFile

open TableFile

def addToTable (boundary : Word) (e : Entry) (f : TableFile) : TableFile :=
  if f.timeBoundary = boundary then f.add e else f

/-- One turn of the loop of `BuildTables`, for an entry of the partition `boundary`. -/
def addToTablesAt (next : ℕ) (boundary : Word) (metas : List TableFile) (e : Entry) :
    List TableFile :=
  if metas.any fun f => f.timeBoundary == boundary then
    metas.map (addToTable boundary e)
  else metas ++
    [{ start (next + metas.length) partitionLength e with timeBoundary := boundary }]

/-- One turn of the loop of `BuildTablesTree`. -/
def addToTables (next : ℕ) (metas : List TableFile) (e : Entry) : List TableFile :=
  addToTablesAt next (partitionOf partitionLength e.time) metas e

/-- `BuildTablesTree` for the entries of an iterator; `next` is the next file number.
The files are handed on to an edit, whose order does not matter. -/
def buildTablesTree (next : ℕ) (iter : List Entry) : List TableFile :=
  iter.foldl (addToTables next) []

section BuildTables

/-- The tables after the entries `done`. -/
structure Built (next : ℕ) (done : List Entry) (metas : List TableFile) : Prop where
  entries_eq : ∀ f ∈ metas, f.entries =
    done.filter fun e => partitionOf partitionLength e.time = f.timeBoundary
  covered : ∀ e ∈ done, ∃ f ∈ metas, f.timeBoundary = partitionOf partitionLength e.time
  nodup : (metas.map timeBoundary).Nodup
  numbers : metas.map number = List.range' next metas.length
  interval_eq : ∀ f ∈ metas, f.timeInterval = partitionLength
  smallest_eq : ∀ f ∈ metas, f.entries.head?.map Entry.ikey = some f.smallest
  largest_eq : ∀ f ∈ metas, f.entries.getLast?.map Entry.ikey = some f.largest

theorem built_nil (next : ℕ) : Built next [] [] where
  entries_eq := nofun
  covered := nofun
  nodup := nodup_nil
  numbers := rfl
  interval_eq := nofun
  smallest_eq := nofun
  largest_eq := nofun

theorem addToTable_fields (b : Word) (e : Entry) (f : TableFile) :
    (addToTable b e f).timeBoundary = f.timeBoundary ∧ (addToTable b e f).number = f.number ∧
      (addToTable b e f).timeInterval = f.timeInterval := by
  unfold addToTable
  split <;> exact ⟨rfl, rfl, rfl⟩

variable {next : ℕ} {done : List Entry} {metas : List TableFile}

theorem Built.append (h : Built next done metas) {e : Entry}
    (hold : ∃ f ∈ metas, f.timeBoundary = partitionOf partitionLength e.time) :
    Built next (done ++ [e])
      (metas.map (addToTable (partitionOf partitionLength e.time) e)) where
  entries_eq := by
    rw [forall_mem_map]
    intro f hf
    rw [filter_append, (addToTable_fields _ e f).1, ← h.entries_eq f hf]
    unfold addToTable
    split
    · rename_i heq
      simp [TableFile.add, heq]
    · rename_i hne
      simp [Ne.symm hne]
  covered := by
    intro e' he'
    obtain ⟨f, hf, hfe⟩ : ∃ f ∈ metas, f.timeBoundary = partitionOf partitionLength e'.time := by
      rcases mem_append.1 he' with he' | he'
      · exact h.covered e' he'
      · rw [mem_singleton.1 he']
        exact hold
    exact ⟨_, mem_map_of_mem hf, (addToTable_fields _ e f).1.trans hfe⟩
  nodup := by
    have hsame : timeBoundary ∘ addToTable (partitionOf partitionLength e.time) e = timeBoundary :=
      funext fun f => (addToTable_fields _ e f).1
    rw [map_map, hsame]
    exact h.nodup
  numbers := by
    have hsame : number ∘ addToTable (partitionOf partitionLength e.time) e = number :=
      funext fun f => (addToTable_fields _ e f).2.1
    rw [map_map, hsame, length_map]
    exact h.numbers
  interval_eq := by
    rw [forall_mem_map]
    intro f hf
    rw [(addToTable_fields _ e f).2.2]
    exact h.interval_eq f hf
  smallest_eq := by
    rw [forall_mem_map]
    intro f hf
    have hfirst := h.smallest_eq f hf
    unfold addToTable
    split
    · rw [Option.map_eq_some_iff] at hfirst
      obtain ⟨e₀, he₀, hkey⟩ := hfirst
      simp only [TableFile.add, head?_append, he₀, Option.some_or, Option.map_some, hkey]
    · exact hfirst
  largest_eq := by
    rw [forall_mem_map]
    intro f hf
    unfold addToTable
    split
    · simp [TableFile.add]
    · exact h.largest_eq f hf

theorem Built.open (h : Built next done metas) {e : Entry}
    (hnew : ∀ f ∈ metas, f.timeBoundary ≠ partitionOf partitionLength e.time) :
    Built next (done ++ [e])
      (metas ++ [start (next + metas.length) partitionLength e]) where
  entries_eq := by
    have hempty : (done.filter fun e' => partitionOf partitionLength e'.time =
        partitionOf partitionLength e.time) = [] := by
      rw [filter_eq_nil_iff]
      intro e' he' heq
      obtain ⟨f, hf, hfe⟩ := h.covered e' he'
      exact hnew f hf (hfe.trans (of_decide_eq_true heq))
    rw [forall_mem_append, forall_mem_singleton]
    constructor
    · intro f hf
      rw [filter_append, ← h.entries_eq f hf]
      simp [Ne.symm (hnew f hf)]
    · rw [start, filter_append, hempty]
      simp
  covered := by
    intro e' he'
    rcases mem_append.1 he' with he' | he'
    · obtain ⟨f, hf, hfe⟩ := h.covered e' he'
      exact ⟨f, mem_append_left _ hf, hfe⟩
    · rw [mem_singleton.1 he']
      exact ⟨_, mem_append_right _ mem_cons_self, rfl⟩
  nodup := by
    rw [map_append, List.nodup_append]
    refine ⟨h.nodup, nodup_singleton _, ?_⟩
    intro b hb b' hb'
    obtain ⟨f, hf, rfl⟩ := mem_map.1 hb
    rw [map_singleton, mem_singleton] at hb'
    rw [hb']
    exact hnew f hf
  numbers := by
    rw [map_append, h.numbers, length_append, length_singleton,
      range'_concat, Nat.one_mul]
    rfl
  interval_eq := by
    rw [forall_mem_append, forall_mem_singleton]
    exact ⟨h.interval_eq, rfl⟩
  smallest_eq := by
    rw [forall_mem_append, forall_mem_singleton]
    exact ⟨h.smallest_eq, rfl⟩
  largest_eq := by
    rw [forall_mem_append, forall_mem_singleton]
    exact ⟨h.largest_eq, rfl⟩

theorem Built.addToTables (h : Built next done metas) (e : Entry) :
    Built next (done ++ [e]) (addToTables next metas e) := by
  unfold PromTCS.addToTables addToTablesAt
  simp only [any_eq_true, beq_iff_eq]
  split
  · rename_i hold
    exact h.append hold
  · rename_i hnew
    exact h.open fun f hf heq => hnew ⟨f, hf, heq⟩

theorem built_buildTablesTree (next : ℕ) (iter : List Entry) :
    Built next iter (buildTablesTree next iter) := by
  have hloop : ∀ (done : List Entry) (metas : List TableFile), Built next done metas →
      Built next (done ++ iter) (iter.foldl (addToTables next) metas) := by
    induction iter with
    | nil =>
      intro done metas h
      rwa [append_nil]
    | cons e iter ih =>
      intro done metas h
      have hrest := ih _ _ (h.addToTables e)
      rwa [append_assoc, singleton_append] at hrest
  exact hloop [] [] (built_nil next)

section

variable (h : Built next done metas)
include h

theorem Built.exact (hs : Merge.Sorted Entry.ikey done) {f : TableFile}
    (hf : f ∈ metas) : f.Exact where
  smallest_eq := h.smallest_eq f hf
  largest_eq := h.largest_eq f hf
  sorted := by
    rw [h.entries_eq f hf]
    exact hs.filter _

theorem Built.filed {f : TableFile} (hf : f ∈ metas) : f.Filed where
  interval_eq := h.interval_eq f hf
  boundary_eq := by
    intro e he
    rw [h.entries_eq f hf, mem_filter] at he
    exact of_decide_eq_true he.2

theorem Built.mem_iff (e : Entry) :
    (∃ f ∈ metas, e ∈ f.entries) ↔ e ∈ done := by
  constructor
  · rintro ⟨f, hf, he⟩
    rw [h.entries_eq f hf] at he
    exact mem_of_mem_filter he
  · intro he
    obtain ⟨f, hf, hfe⟩ := h.covered e he
    refine ⟨f, hf, ?_⟩
    rw [h.entries_eq f hf, mem_filter]
    exact ⟨he, decide_eq_true hfe.symm⟩

theorem Built.eq_of_mem {f g : TableFile} (hf : f ∈ metas)
    (hg : g ∈ metas) {e : Entry} (he : e ∈ f.entries) (he' : e ∈ g.entries) : f = g :=
  inj_on_of_nodup_map h.nodup hf hg
    (((h.filed hf).boundary_eq e he).symm.trans ((h.filed hg).boundary_eq e he'))

end

end BuildTables

theorem partitionOf_contains (t : Word) : (partitionOf partitionLength t).toNat ≤ t.toNat ∧
    t.toNat < (partitionOf partitionLength t).toNat + partitionLength.toNat := by
  rw [toNat_partitionOf]
  exact ⟨Nat.div_mul_le_self _ _, Nat.lt_div_mul_add (by decide)⟩

/-- The files of a memtable: each entry is in one of them, the one of its partition. -/
theorem buildTablesTree_files (next : ℕ) (iter : List Entry) (hiter : Merge.Sorted Entry.ikey iter) :
    (∀ e ∈ iter, ∃! f, f ∈ buildTablesTree next iter ∧ e ∈ f.entries) ∧
      ∀ f ∈ buildTablesTree next iter,
        (f.entries = iter.filter fun e => partitionOf partitionLength e.time = f.timeBoundary) ∧
        f.entries ≠ [] ∧ f.Exact ∧ f.timeInterval = partitionLength ∧
        ∀ e ∈ f.entries, f.timeBoundary.toNat ≤ e.time.toNat ∧
          e.time.toNat < f.timeBoundary.toNat + f.timeInterval.toNat := by
  have h := built_buildTablesTree next iter
  constructor
  · intro e he
    obtain ⟨f, hf, hmem⟩ := (h.mem_iff e).2 he
    exact ⟨f, ⟨hf, hmem⟩, fun g hg => h.eq_of_mem hg.1 hf hg.2 hmem⟩
  · intro f hf
    have hexact := h.exact hiter hf
    refine ⟨h.entries_eq f hf, fun hnil => ?_, hexact, h.interval_eq f hf, fun e he => ?_⟩
    · obtain ⟨e, he, -⟩ := hexact.exists_largest
      rw [hnil] at he
      exact absurd he not_mem_nil
    · rw [← (h.filed hf).boundary_eq e he, h.interval_eq f hf]
      exact partitionOf_contains e.time

def takingTurns : List Entry :=
  [⟨⟨⟨1, 1, 5⟩, 1⟩, [1]⟩, ⟨⟨⟨1, 1, 7200005⟩, 2⟩, [2]⟩, ⟨⟨⟨2, 1, 6⟩, 3⟩, [3]⟩]

theorem buildTablesTree_files_takingTurns :
    (buildTablesTree 9 takingTurns).map (fun f => (f.number, f.timeBoundary, f.entries.length)) =
        [(9, 0, 2), (10, 7200000, 1)] ∧ ∀ f ∈ buildTablesTree 9 takingTurns, f.Exact := by
  refine ⟨by decide +kernel, fun f hf => ?_⟩
  exact ((buildTablesTree_files 9 takingTurns (by decide +kernel)).2 f hf).2.2.1

end PromTCS
