import PromTCS.Lib.Newest
import PromTCS.Lsm.VersionSet

/-!
# Reading the store

`DBImpl::Get` looks for a key in the memtable, in the immutable memtables from the newest
on, in the files of level 0 that may hold the key from the newest on, and in one file of
level 1, which a binary search by key finds. An iterator merges all of these and shows the
first entry of every user key.

Both are right when later sources hold older entries of a key and the files of level 1
ascend by key in the order of the level.
-/

namespace PromTCS

open List Entry TableFile

def Entry.userRank (e : Entry) : List ℕ :=
  e.ikey.user.rank

def Entry.seq (e : Entry) : ℕ :=
  e.ikey.seq

/-- `Seek` to the key with the sequence number of the snapshot in a memtable or a table,
and the comparison of the user key. -/
def lookup (snapshot : ℕ) (k : TreeKey) (entries : List Entry) : Option Entry :=
  (entries.find? fun e => decide ((⟨k, snapshot⟩ : InternalKey) ≤ e.ikey)).filter
    fun e => decide (e.ikey.user = k)

/-- `FindFile`: the first file whose largest key is not below the key. -/
def findFile (files : List TableFile) (key : InternalKey) : ℕ :=
  BinarySearch.search (fun i => files[i]?.any fun f => decide (key ≤ f.largest)) files.length 0
    files.length

def newestFirst (files : List TableFile) : List TableFile :=
  files.insertionSort fun f g => g.number ≤ f.number

/-- The files that `ForEachOverlapping` comes to. -/
def forEachOverlapping (v : VersionSet) (k : TreeKey) (snapshot : ℕ) : List TableFile :=
  newestFirst (v.l0.files.filter fun f =>
      decide (f.smallest.user.rank ≤ k.rank ∧ k.rank ≤ f.largest.user.rank)) ++
    (v.l1.files[findFile v.l1.files ⟨k, snapshot⟩]?.filter fun f =>
      decide (f.smallest.user.rank ≤ k.rank)).toList

structure DbImpl where
  mem : List Entry
  imms : List (List Entry)
  versions : VersionSet
  lastSequence : ℕ
deriving DecidableEq, Repr

namespace DbImpl

variable (d : DbImpl)

def getEntry (k : TreeKey) : Option Entry :=
  ((d.mem :: d.imms.reverse).findSome? (lookup d.lastSequence k)).or
    ((forEachOverlapping d.versions k d.lastSequence).findSome? fun f =>
      lookup d.lastSequence k f.entries)

/-- `DBImpl::Get`; `none` is `NotFound`. -/
def get (k : TreeKey) : Option (List Byte) :=
  (d.getEntry k).map value

/-- `NewInternalIterator`: the files of level 1 are read one after another. -/
def internalIterator : List Entry :=
  Merge.mergeAll ikey (d.mem :: d.imms ++ d.versions.l0.files.map entries ++
    [d.versions.l1.files.flatMap entries])

/-- The entries that a `DBIter` shows from `SeekToFirst` on. -/
def dbIter : List Entry :=
  Newest.firsts userRank none
    (d.internalIterator.filter fun e => decide (e.seq ≤ d.lastSequence))

def newIterator : List (TreeKey × List Byte) :=
  d.dbIter.map fun e => (e.ikey.user, e.value)

def tables : List (List Entry) :=
  d.imms ++ [d.mem]

def entries0 : List Entry :=
  d.versions.l0.files.flatMap entries

def entries1 : List Entry :=
  d.versions.l1.files.flatMap entries

def stored : List Entry :=
  d.tables.reverse.flatten ++ (d.entries0 ++ d.entries1)

structure Readable (d : DbImpl) : Prop where
  valid : d.versions.Valid
  sorted : ∀ t ∈ d.tables, Merge.Sorted ikey t
  visible : ∀ e ∈ d.stored, e.seq ≤ d.lastSequence
  tables_older : d.tables.Pairwise fun s t => Newest.Older userRank seq t s
  files_older : ∀ t ∈ d.tables,
    Newest.Older userRank seq t (d.entries0 ++ d.entries1)
  l0_older : ∀ f ∈ d.versions.l0.files, ∀ g ∈ d.versions.l0.files, g.number < f.number →
    Newest.Older userRank seq f.entries g.entries
  l1_older : Newest.Older userRank seq d.entries0 d.entries1
  ascending : d.versions.l1.files.Pairwise fun f g => f.largest < g.smallest

end DbImpl

theorem ordered_of_sorted {s : List Entry} (h : Merge.Sorted ikey s) :
    Newest.Ordered userRank seq s :=
  h.imp fun hle => InternalKey.le_iff.1 hle

variable {snapshot : ℕ}

theorem le_ikey_iff {k : TreeKey} {e : Entry} (he : e.seq ≤ snapshot) :
    (⟨k, snapshot⟩ : InternalKey) ≤ e.ikey ↔ k.rank ≤ e.userRank := by
  rw [InternalKey.le_iff, le_iff_lt_or_eq (a := k.rank)]
  exact or_congr_right (and_iff_left he)

theorem isNewest_lookup {s : List Entry} (h : Merge.Sorted ikey s)
    (hs : ∀ e ∈ s, e.seq ≤ snapshot) (k : TreeKey) :
    Newest.IsNewest userRank seq s k.rank (lookup snapshot k s) := by
  refine (ordered_of_sorted h).isNewest_find? (fun e he => ?_) fun e => ?_
  · rw [decide_eq_true_eq, le_ikey_iff (hs e he)]
  · rw [decide_eq_true_eq]
    exact TreeKey.rank_injective.eq_iff.symm

theorem lookup_eq_none {f : TableFile} (h : f.Exact) {k : TreeKey}
    (hk : ¬(f.smallest.user.rank ≤ k.rank ∧ k.rank ≤ f.largest.user.rank)) :
    lookup snapshot k f.entries = none := by
  rw [lookup, Option.filter_eq_none_iff]
  intro e he heq
  have hmem := mem_of_find?_eq_some he
  rw [decide_eq_true_eq] at heq
  rw [← heq] at hk
  exact hk ⟨InternalKey.user_le_of_le (h.smallest_le hmem),
    InternalKey.user_le_of_le (h.le_largest hmem)⟩

section LevelOne

variable {files : List TableFile}

theorem splits_findFile (hexact : ∀ f ∈ files, f.Exact)
    (hasc : files.Pairwise fun f g => f.largest < g.smallest) (key : InternalKey) :
    BinarySearch.Splits (fun i => files[i]?.any fun f => decide (key ≤ f.largest)) 0
      files.length (findFile files key) := by
  refine BinarySearch.splits_search (Nat.sub_le _ _) (Nat.zero_le _) fun i j hij hj hi => ?_
  obtain ⟨f, hf, hkey⟩ := (Option.any_eq_true _ _).1 hi
  have hg := getElem?_eq_getElem hj
  refine (Option.any_eq_true _ _).2 ⟨files[j], hg, decide_eq_true ?_⟩
  rcases hij.lt_or_eq with hlt | rfl
  · have hfg := Merge.rel_of_getElem? hasc hlt hf hg
    exact ((of_decide_eq_true hkey).trans hfg.le).trans
      (hexact _ (mem_of_getElem? hg)).smallest_le_largest
  · rw [hg] at hf
    rw [Option.some.inj hf]
    exact of_decide_eq_true hkey

theorem lookup_flatMap (hexact : ∀ f ∈ files, f.Exact)
    (hasc : files.Pairwise fun f g => f.largest < g.smallest) (k : TreeKey) (snapshot : ℕ) :
    lookup snapshot k (files.flatMap entries) =
      files[findFile files ⟨k, snapshot⟩]?.bind fun f => lookup snapshot k f.entries := by
  have hsplits := splits_findFile hexact hasc ⟨k, snapshot⟩
  generalize findFile files ⟨k, snapshot⟩ = i at hsplits
  have hbefore : ((files.take i).flatMap entries).find?
      (fun e => decide ((⟨k, snapshot⟩ : InternalKey) ≤ e.ikey)) = none := by
    rw [find?_eq_none]
    intro e he hle
    obtain ⟨f, hf, hef⟩ := mem_flatMap.1 he
    rw [← drop_zero (l := files.take i), Level.mem_drop_take_iff] at hf
    obtain ⟨j, hj, -, hji⟩ := hf
    have hfalse := hsplits.before j (Nat.zero_le j) hji
    rw [hj, Option.any_some, decide_eq_false_iff_not] at hfalse
    exact hfalse ((of_decide_eq_true hle).trans
      ((hexact f (mem_of_getElem? hj)).le_largest hef))
  have hsearch : (files.flatMap entries).find?
      (fun e => decide ((⟨k, snapshot⟩ : InternalKey) ≤ e.ikey)) = files[i]?.bind fun f =>
        f.entries.find? fun e => decide ((⟨k, snapshot⟩ : InternalKey) ≤ e.ikey) := by
    rw [← take_append_drop i files, flatMap_append, find?_append, hbefore,
      Option.none_or, take_append_drop]
    rcases Nat.lt_or_ge i files.length with hi | hi
    · have hf := getElem?_eq_getElem hi
      have hexact' := hexact _ (mem_of_getElem? hf)
      obtain ⟨e, he, hkey⟩ := hexact'.exists_largest
      have hle := hsplits.from_on i le_rfl hi
      rw [hf, Option.any_some, ← hkey] at hle
      have hsome := find?_isSome
        (p := fun e : Entry => decide ((⟨k, snapshot⟩ : InternalKey) ≤ e.ikey)).2 ⟨e, he, hle⟩
      rw [drop_eq_getElem_cons hi, flatMap_cons, find?_append, hf,
        Option.bind_some, Option.or_of_isSome hsome]
    · rw [drop_eq_nil_of_le hi, getElem?_eq_none hi]
      rfl
  rw [lookup, hsearch]
  cases files[i]? with
  | none => rfl
  | some f => rfl

end LevelOne

theorem pairwise_newestFirst {files : List TableFile}
    (hnodup : (files.map number).Nodup) {R : TableFile → TableFile → Prop}
    (hR : ∀ f ∈ files, ∀ g ∈ files, g.number < f.number → R f g) :
    (newestFirst files).Pairwise R := by
  have htotal : Std.Total fun f g : TableFile => g.number ≤ f.number :=
    ⟨fun f g => le_total g.number f.number⟩
  have htrans : IsTrans TableFile fun f g => g.number ≤ f.number :=
    ⟨fun _ _ _ hfg hgh => hgh.trans hfg⟩
  have hperm := perm_insertionSort (fun f g : TableFile => g.number ≤ f.number) files
  have hne : (newestFirst files).Pairwise fun f g => f.number ≠ g.number :=
    pairwise_map.1 ((hperm.map _).nodup_iff.2 hnodup)
  refine ((pairwise_insertionSort _ files).and hne).imp_of_mem fun {f g} hf hg hfg => ?_
  exact hR f (hperm.subset hf) g (hperm.subset hg) (lt_of_le_of_ne hfg.1 (Ne.symm hfg.2))

namespace DbImpl

variable {d : DbImpl}
  {e : Entry}

theorem mem_entries0 : e ∈ d.entries0 ↔ ∃ f ∈ d.versions.l0.files, e ∈ f.entries :=
  mem_flatMap

section

variable (h : d.Readable)
include h

theorem Readable.visible0 {f : TableFile} (hf : f ∈ d.versions.l0.files)
    (he : e ∈ f.entries) : e.seq ≤ d.lastSequence :=
  h.visible e (mem_append_right _ (mem_append_left _ (mem_entries0.2 ⟨f, hf, he⟩)))

theorem Readable.isNewest_l0 (k : TreeKey) :
    Newest.IsNewest userRank seq d.entries0 k.rank
      ((newestFirst (d.versions.l0.files.filter fun f =>
        decide (f.smallest.user.rank ≤ k.rank ∧ k.rank ≤ f.largest.user.rank))).findSome?
          fun f => lookup d.lastSequence k f.entries) := by
  set files := d.versions.l0.files.filter fun f =>
    decide (f.smallest.user.rank ≤ k.rank ∧ k.rank ≤ f.largest.user.rank) with hfiles
  have hsub : ∀ f, f ∈ newestFirst files ↔ f ∈ d.versions.l0.files ∧
      f.smallest.user.rank ≤ k.rank ∧ k.rank ≤ f.largest.user.rank := by
    intro f
    rw [newestFirst, mem_insertionSort, hfiles, mem_filter, decide_eq_true_eq]
  have hnodup : (files.map number).Nodup :=
    h.valid.nodup0.sublist (filter_sublist.map _)
  have holder : ((newestFirst files).map entries).Pairwise
      (Newest.Older userRank seq) := by
    rw [pairwise_map]
    exact pairwise_newestFirst hnodup fun f hf g hg =>
      h.l0_older f (mem_of_mem_filter hf) g (mem_of_mem_filter hg)
  have hread : ∀ s ∈ (newestFirst files).map entries,
      Newest.IsNewest userRank seq s k.rank (lookup d.lastSequence k s) := by
    rw [forall_mem_map]
    intro f hf
    have hf0 := ((hsub f).1 hf).1
    exact isNewest_lookup (h.valid.l0.exact f hf0).sorted (fun e he => h.visible0 hf0 he) k
  have hnewest := Newest.isNewest_findSome? hread holder
  rw [findSome?_map] at hnewest
  refine hnewest.congr fun e hek => ?_
  -- a file that holds the key passes the test on its range
  rw [← flatMap_def, mem_flatMap, mem_entries0]
  constructor
  · rintro ⟨f, hf, he⟩
    exact ⟨f, ((hsub f).1 hf).1, he⟩
  · rintro ⟨f, hf, he⟩
    have hexact := h.valid.l0.exact f hf
    exact ⟨f, (hsub f).2 ⟨hf, hek ▸ InternalKey.user_le_of_le (hexact.smallest_le he),
      hek ▸ InternalKey.user_le_of_le (hexact.le_largest he)⟩, he⟩

theorem Readable.sorted1 : Merge.Sorted ikey d.entries1 := by
  refine pairwise_flatMap.2 ⟨fun f hf => (h.valid.l1.exact f hf).sorted, ?_⟩
  refine h.ascending.imp_of_mem fun {f g} hf hg hfg x hx y hy => ?_
  exact ((h.valid.l1.exact f hf).le_largest hx).trans
    (hfg.le.trans ((h.valid.l1.exact g hg).smallest_le hy))

theorem Readable.isNewest_l1 (k : TreeKey) :
    Newest.IsNewest userRank seq d.entries1 k.rank
      ((d.versions.l1.files[findFile d.versions.l1.files ⟨k, d.lastSequence⟩]?.filter
        fun f => decide (f.smallest.user.rank ≤ k.rank)).toList.findSome?
          fun f => lookup d.lastSequence k f.entries) := by
  have hnewest := isNewest_lookup h.sorted1 (fun e he => h.visible e
    (mem_append_right _ (mem_append_right _ he))) k
  rw [entries1, lookup_flatMap h.valid.l1.exact h.ascending] at hnewest
  cases hf : d.versions.l1.files[findFile d.versions.l1.files ⟨k, d.lastSequence⟩]? with
  | none =>
    rw [hf] at hnewest
    exact hnewest
  | some f =>
    rw [hf, Option.bind_some] at hnewest
    rw [Option.filter_some]
    by_cases hk : f.smallest.user.rank ≤ k.rank
    · rw [if_pos (decide_eq_true hk), Option.toList_some, findSome?_singleton]
      exact hnewest
    · rw [lookup_eq_none (h.valid.l1.exact f (mem_of_getElem? hf)) fun hr => hk hr.1]
        at hnewest
      rw [if_neg fun htrue => hk (of_decide_eq_true htrue)]
      exact hnewest

theorem Readable.isNewest_getEntry (k : TreeKey) :
    Newest.IsNewest userRank seq d.stored k.rank (d.getEntry k) := by
  have htables : Newest.IsNewest userRank seq d.tables.reverse.flatten k.rank
      ((d.mem :: d.imms.reverse).findSome? (lookup d.lastSequence k)) := by
    rw [show d.mem :: d.imms.reverse = d.tables.reverse from List.reverse_concat.symm]
    refine Newest.isNewest_findSome? (fun t ht => ?_) (pairwise_reverse.2 h.tables_older)
    exact isNewest_lookup (h.sorted t (mem_reverse.1 ht))
      (fun e he => h.visible e (mem_append_left _ (mem_flatten.2 ⟨t, ht, he⟩))) k
  have hfiles : Newest.Older userRank seq d.tables.reverse.flatten
      (d.entries0 ++ d.entries1) := by
    intro x hx
    obtain ⟨t, ht, hxt⟩ := mem_flatten.1 hx
    exact h.files_older t (mem_reverse.1 ht) x hxt
  rw [getEntry, forEachOverlapping, findSome?_append]
  exact htables.append ((h.isNewest_l0 k).append (h.isNewest_l1 k) h.l1_older) hfiles

theorem Readable.sorted_internalIterator :
    Merge.Sorted ikey d.internalIterator := by
  refine Merge.sorted_mergeAll fun s hs => ?_
  simp only [mem_append, mem_cons, mem_map, not_mem_nil, or_false] at hs
  rcases hs with ((rfl | hs) | ⟨f, hf, rfl⟩) | rfl
  · exact h.sorted _ (mem_append_right _ (mem_singleton_self _))
  · exact h.sorted s (mem_append_left _ hs)
  · exact (h.valid.l0.exact f hf).sorted
  · exact h.sorted1

end

theorem mem_stored : e ∈ d.stored ↔ (∃ t ∈ d.tables, e ∈ t) ∨ e ∈ d.entries0 ∨ e ∈ d.entries1 := by
  simp only [stored, mem_append, mem_flatten, mem_reverse]

theorem exists_mem_tables : (∃ t ∈ d.tables, e ∈ t) ↔ (∃ t ∈ d.imms, e ∈ t) ∨ e ∈ d.mem := by
  simp only [tables, mem_append, mem_singleton, or_and_right, exists_or, exists_eq_left]

theorem mem_internalIterator : e ∈ d.internalIterator ↔ e ∈ d.stored := by
  rw [internalIterator, (Merge.perm_mergeAll _).mem_iff, flatten_append, mem_append,
    flatten_append, mem_append, flatten_singleton, ← flatMap_def, mem_stored,
    or_assoc]
  rw [flatten_cons, mem_append, mem_flatten, exists_mem_tables]
  exact or_congr_left or_comm

theorem Readable.firsts_dbIter (h : d.Readable) :
    Newest.Firsts userRank seq none d.stored d.dbIter := by
  have hall : (d.internalIterator.filter fun e => decide (e.seq ≤ d.lastSequence)) =
      d.internalIterator :=
    filter_eq_self.2 fun e he => decide_eq_true (h.visible e (mem_internalIterator.1 he))
  rw [dbIter, hall]
  exact ((ordered_of_sorted h.sorted_internalIterator).firsts none).congr fun _ =>
    mem_internalIterator

end DbImpl

end PromTCS
