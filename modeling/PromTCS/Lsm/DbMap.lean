import PromTCS.Lsm.Read

/-!
# The store as a map

The state of the database is followed over writes, switches of the memtable, flushes and
compactions, together with the map from keys to the values that were last written. Reads
and iteration agree with this map in every run in which compactions keep the key order of
level 1: there the files are ordered by partition, while they are searched by key.
-/

namespace PromTCS

open List DbImpl

structure Tracked where
  db : DbImpl
  written : TreeKey → Option (List Byte)

inductive DbOp
  | put (k : TreeKey) (value : List Byte)
  | switch
  | flush
  | compact
deriving DecidableEq, Repr

namespace DbImpl

def init : DbImpl :=
  ⟨[], [], VersionSet.empty, 0⟩

/-- A `Put` of one key: the memtable keeps the order of internal keys. -/
def put (d : DbImpl) (k : TreeKey) (value : List Byte) : DbImpl :=
  { d with
    mem := d.mem.orderedInsert (fun x y => x.ikey ≤ y.ikey) ⟨⟨k, d.lastSequence + 1⟩, value⟩
    lastSequence := d.lastSequence + 1 }

def switch (d : DbImpl) : DbImpl :=
  { d with mem := [], imms := d.imms ++ [d.mem] }

/-- `CompactMemTableTree` for the oldest immutable memtable. -/
def flush (d : DbImpl) : DbImpl :=
  match d.imms with
  | [] => d
  | imm :: imms => { d with imms := imms, versions := d.versions.flush imm }

end DbImpl

def KeyOrdered (v : VersionSet) (c : Compaction) (b : Word) : Prop :=
  ∀ g ∈ v.l1.files, ∀ f ∈ c.inputs,
    (g.timeBoundary.toInt < b.toInt → g.largest < f.smallest) ∧
      (b.toInt < g.timeBoundary.toInt → f.largest < g.smallest)

def VersionSet.KeepsOrder (v : VersionSet) : Prop :=
  ∀ c ∈ pickCompaction v.l0 v.l1, ∀ f ∈ v.l0.files.head?,
    c.InOnePartition f.timeBoundary ∧ KeyOrdered v c f.timeBoundary

instance (v : VersionSet) (c : Compaction) (b : Word) : Decidable (KeyOrdered v c b) := by
  unfold KeyOrdered
  infer_instance

instance (v : VersionSet) : Decidable v.KeepsOrder := by
  unfold VersionSet.KeepsOrder
  infer_instance

namespace Tracked

def init : Tracked :=
  ⟨DbImpl.init, fun _ => none⟩

def step (fileSize : List Entry → ℕ) (maxOutputFileSize : ℕ) (s : Tracked) :
    DbOp → Except Unit Tracked
  | .put k value => .ok ⟨s.db.put k value, Function.update s.written k (some value)⟩
  | .switch => .ok ⟨s.db.switch, s.written⟩
  | .flush => .ok ⟨s.db.flush, s.written⟩
  | .compact => do
    let versions ← s.db.versions.compact fileSize maxOutputFileSize
    return ⟨{ s.db with versions := versions }, s.written⟩

def Allowed (s : Tracked) : DbOp → Prop
  | .compact => s.db.versions.KeepsOrder
  | _ => True

instance (s : Tracked) (op : DbOp) : Decidable (s.Allowed op) := by
  cases op <;> unfold Allowed <;> infer_instance

end Tracked

structure Contents (s : Tracked) : Prop where
  visible : ∀ e ∈ s.db.stored, e.seq ≤ s.db.lastSequence
  unique : ∀ x ∈ s.db.stored, ∀ y ∈ s.db.stored, x.userRank = y.userRank → x.seq = y.seq → x = y
  written : ∀ k, ∃ o, Newest.IsNewest Entry.userRank Entry.seq s.db.stored k.rank o ∧
    s.written k = o.map Entry.value

structure Aged (d : DbImpl) : Prop where
  tables_newer : d.tables.Pairwise fun t u => ∀ x ∈ t, ∀ y ∈ u, x.seq < y.seq
  files_older : ∀ t ∈ d.tables, ∀ x ∈ t, ∀ y, y ∈ d.entries0 ∨ y ∈ d.entries1 → y.seq < x.seq

structure Layout (d : DbImpl) : Prop where
  valid : d.versions.Valid
  sorted : ∀ t ∈ d.tables, Merge.Sorted Entry.ikey t
  tables_newer : d.tables.Pairwise fun t u => ∀ x ∈ t, ∀ y ∈ u, x.seq < y.seq
  files_older : ∀ t ∈ d.tables, ∀ x ∈ t, ∀ y, y ∈ d.entries0 ∨ y ∈ d.entries1 → y.seq < x.seq
  l0_older : ∀ f ∈ d.versions.l0.files, ∀ g ∈ d.versions.l0.files, g.number < f.number →
    Newest.Older Entry.userRank Entry.seq f.entries g.entries
  l1_older : Newest.Older Entry.userRank Entry.seq d.entries0 d.entries1
  ascending : ∀ f ∈ d.versions.l1.files, ∀ g ∈ d.versions.l1.files,
    f.timeKey < g.timeKey → f.largest < g.smallest

variable {d : DbImpl} {s : Tracked}

theorem Layout.aged (h : Layout d) : Aged d :=
  ⟨h.tables_newer, h.files_older⟩

theorem aged_init : Aged DbImpl.init where
  tables_newer := pairwise_singleton _ _
  files_older := by
    intro t ht x hx
    rw [mem_singleton.1 ht] at hx
    exact absurd hx not_mem_nil

theorem contents_init : Contents Tracked.init where
  visible := nofun
  unique := nofun
  written := fun _ => ⟨none, Newest.isNewest_nil _, rfl⟩

theorem layout_init : Layout DbImpl.init where
  valid := VersionSet.valid_empty
  sorted := by
    intro t ht
    rw [mem_singleton.1 ht]
    exact List.Pairwise.nil
  tables_newer := aged_init.tables_newer
  files_older := aged_init.files_older
  l0_older := nofun
  l1_older := nofun
  ascending := nofun

theorem Layout.readable (h : Layout s.db) (hc : Contents s) : s.db.Readable where
  valid := h.valid
  sorted := h.sorted
  visible := hc.visible
  tables_older := h.tables_newer.imp fun hlt x hx y hy _ => (hlt y hy x hx).le
  files_older := fun t ht x hx y hy _ => (h.files_older t ht x hx y (mem_append.1 hy)).le
  l0_older := h.l0_older
  l1_older := h.l1_older
  ascending := by
    have hne : s.db.versions.l1.files.Pairwise fun f g => f.number ≠ g.number :=
      pairwise_map.1 h.valid.nodup1
    refine (h.valid.l1.sorted.and hne).imp_of_mem fun {f g} hf hg hfg => ?_
    refine h.ascending f hf g hg (lt_of_le_of_ne hfg.1 fun heq => hfg.2 ?_)
    exact (Prod.mk.inj (toLex_inj.1 heq)).2

theorem Contents.moved (h : Contents s) (hstored : ∀ e, e ∈ s.db.stored ↔ e ∈ d.stored)
    (hlast : d.lastSequence = s.db.lastSequence) : Contents ⟨d, s.written⟩ where
  visible := fun e he => by
    rw [hlast]
    exact h.visible e ((hstored e).2 he)
  unique := fun x hx y hy => h.unique x ((hstored x).2 hx) y ((hstored y).2 hy)
  written := fun k => by
    obtain ⟨o, ho, hw⟩ := h.written k
    exact ⟨o, ho.congr fun e _ => hstored e, hw⟩

section Put

variable {s : Tracked}

theorem mem_stored_put (d : DbImpl) (k : TreeKey) (value : List Byte) (e : Entry) :
    e ∈ (d.put k value).stored ↔ e = ⟨⟨k, d.lastSequence + 1⟩, value⟩ ∨ e ∈ d.stored := by
  have hmem : e ∈ (d.put k value).mem ↔ e = ⟨⟨k, d.lastSequence + 1⟩, value⟩ ∨ e ∈ d.mem :=
    mem_orderedInsert _
  rw [mem_stored, exists_mem_tables, hmem, mem_stored,
    exists_mem_tables, or_left_comm (a := ∃ t ∈ (d.put k value).imms, e ∈ t), or_assoc]
  rfl

theorem Contents.put (h : Contents s) (k : TreeKey) (value : List Byte) :
    Contents ⟨s.db.put k value, Function.update s.written k (some value)⟩ := by
  have hmem := mem_stored_put s.db k value
  have hnew : ∀ y ∈ s.db.stored, y.seq < s.db.lastSequence + 1 := fun y hy =>
    Nat.lt_succ_of_le (h.visible y hy)
  constructor
  · intro e he
    rcases (hmem e).1 he with rfl | he
    · exact le_rfl
    · exact (hnew e he).le
  · intro x hx y hy hkey hseq
    rcases (hmem x).1 hx with rfl | hx
    · rcases (hmem y).1 hy with rfl | hy
      · rfl
      · exact absurd hseq (hnew y hy).ne'
    · rcases (hmem y).1 hy with rfl | hy
      · exact absurd hseq (hnew x hx).ne
      · exact h.unique x hx y hy hkey hseq
  · intro k'
    by_cases hk : k' = k
    · subst hk
      refine ⟨some ⟨⟨k', s.db.lastSequence + 1⟩, value⟩, ⟨fun x hx => ?_, fun y hy _ => ?_⟩,
        Function.update_self _ _ _⟩
      · rw [← Option.some.inj hx]
        exact ⟨(hmem _).2 (Or.inl rfl), rfl⟩
      · refine ⟨_, rfl, ?_⟩
        rcases (hmem y).1 hy with rfl | hy
        · exact le_rfl
        · exact (hnew y hy).le
    · obtain ⟨o, ho, hw⟩ := h.written k'
      refine ⟨o, ho.congr fun e he => ?_, (Function.update_of_ne hk _ _).trans hw⟩
      rw [hmem, or_iff_right]
      rintro rfl
      exact hk (TreeKey.rank_injective he).symm

theorem Aged.put {d : DbImpl} (h : Aged d) (hvisible : ∀ e ∈ d.stored, e.seq ≤ d.lastSequence)
    (k : TreeKey) (value : List Byte) : Aged (d.put k value) := by
  have hmem : ∀ e, e ∈ (d.put k value).mem ↔
      e = ⟨⟨k, d.lastSequence + 1⟩, value⟩ ∨ e ∈ d.mem := fun e => mem_orderedInsert _
  have hnew : ∀ y ∈ d.stored, y.seq < d.lastSequence + 1 := fun y hy =>
    Nat.lt_succ_of_le (hvisible y hy)
  have himm : ∀ t ∈ d.imms, t ∈ d.tables := fun t ht => mem_append_left _ ht
  have hlast : d.mem ∈ d.tables := mem_append_right _ (mem_singleton_self _)
  have hold := pairwise_append.1 h.tables_newer
  constructor
  · refine pairwise_append.2
      ⟨hold.1, pairwise_singleton _ _, fun t ht u hu x hx y hy => ?_⟩
    rw [mem_singleton.1 hu, hmem] at hy
    rcases hy with rfl | hy
    · exact hnew x (mem_stored.2 (Or.inl ⟨t, himm t ht, hx⟩))
    · exact hold.2.2 t ht d.mem (mem_singleton_self _) x hx y hy
  · intro t ht x hx y hy
    rcases mem_append.1 ht with ht | ht
    · exact h.files_older t (himm t ht) x hx y hy
    · rw [mem_singleton.1 ht, hmem] at hx
      rcases hx with rfl | hx
      · exact hnew y (mem_stored.2 (Or.inr hy))
      · exact h.files_older d.mem hlast x hx y hy

theorem Layout.put {d : DbImpl} (h : Layout d) (hvisible : ∀ e ∈ d.stored, e.seq ≤ d.lastSequence)
    (k : TreeKey) (value : List Byte) : Layout (d.put k value) := by
  have haged := h.aged.put hvisible k value
  refine ⟨h.valid, ?_, haged.tables_newer, haged.files_older, h.l0_older, h.l1_older, h.ascending⟩
  intro t ht
  rcases mem_append.1 ht with ht | ht
  · exact h.sorted t (mem_append_left _ ht)
  · rw [mem_singleton.1 ht]
    have htotal : Std.Total fun x y : Entry => x.ikey ≤ y.ikey :=
      ⟨fun x y => le_total x.ikey y.ikey⟩
    have htrans : IsTrans Entry fun x y => x.ikey ≤ y.ikey := ⟨fun _ _ _ => le_trans⟩
    exact List.Pairwise.orderedInsert _ _
      (h.sorted d.mem (mem_append_right _ (mem_singleton_self _)))

end Put

section Switch

theorem DbImpl.tables_switch (d : DbImpl) : d.switch.tables = d.tables ++ [[]] := rfl

theorem mem_stored_switch (d : DbImpl) (e : Entry) : e ∈ d.stored ↔ e ∈ d.switch.stored := by
  rw [mem_stored, mem_stored, tables_switch]
  simp only [mem_append, mem_singleton, or_and_right, exists_or, exists_eq_left,
    not_mem_nil, or_false]
  rfl

theorem Aged.switch {d : DbImpl} (h : Aged d) : Aged d.switch := by
  constructor
  · refine pairwise_append.2
      ⟨h.tables_newer, pairwise_singleton _ _, fun t _ u hu x _ y hy => ?_⟩
    rw [mem_singleton.1 hu] at hy
    exact absurd hy not_mem_nil
  · intro t ht x hx
    rcases mem_append.1 ht with ht | ht
    · exact h.files_older t ht x hx
    · rw [mem_singleton.1 ht] at hx
      exact absurd hx not_mem_nil

theorem Layout.switch {d : DbImpl} (h : Layout d) : Layout d.switch := by
  have haged := h.aged.switch
  refine ⟨h.valid, ?_, haged.tables_newer, haged.files_older, h.l0_older, h.l1_older, h.ascending⟩
  intro t ht
  rcases mem_append.1 ht with ht | ht
  · exact h.sorted t ht
  · rw [mem_singleton.1 ht]
    exact List.Pairwise.nil

end Switch

theorem time_eq_of_userRank_eq {x y : Entry} (h : x.userRank = y.userRank) : x.time = y.time :=
  congrArg TreeKey.t (TreeKey.rank_injective h)

theorem TableFile.Filed.boundary_eq_of_userRank_eq {f g : TableFile} (hf : f.Filed) (hg : g.Filed)
    {x y : Entry} (hx : x ∈ f.entries) (hy : y ∈ g.entries) (h : x.userRank = y.userRank) :
    f.timeBoundary = g.timeBoundary := by
  rw [← hf.boundary_eq x hx, ← hg.boundary_eq y hy, time_eq_of_userRank_eq h]

theorem Aged.moveOldest {d' : DbImpl} (h : Aged d) {imm : List Entry}
    (htables : d.tables = imm :: d'.tables)
    (hfiles : ∀ e, e ∈ d'.entries0 ∨ e ∈ d'.entries1 → e ∈ imm ∨ e ∈ d.entries0 ∨ e ∈ d.entries1) :
    Aged d' := by
  have hnewer := h.tables_newer
  have holder := h.files_older
  rw [htables] at hnewer holder
  refine ⟨(pairwise_cons.1 hnewer).2, fun t ht x hx y hy => ?_⟩
  rcases hfiles y hy with hy | hy
  · exact (pairwise_cons.1 hnewer).1 t ht y hy x hx
  · exact holder t (mem_cons_of_mem imm ht) x hx y hy

section Flush

variable {d : DbImpl} {imm : List Entry} {imms : List (List Entry)}

section

variable (himms : d.imms = imm :: imms)
include himms

theorem DbImpl.flush_eq :
    d.flush = { d with imms := imms, versions := d.versions.flush imm } := by
  rw [flush, himms]

theorem DbImpl.tables_eq : d.tables = imm :: (imms ++ [d.mem]) := by
  rw [tables, himms, cons_append]

theorem mem_l0_flush (f : TableFile) :
    f ∈ d.flush.versions.l0.files ↔
      f ∈ d.versions.l0.files ∨ f ∈ buildTablesTree d.versions.next imm := by
  rw [flush_eq himms, (VersionSet.perm_l0_flush d.versions imm).mem_iff, mem_append]

theorem mem_entries0_flush (e : Entry) :
    e ∈ d.flush.entries0 ↔ e ∈ d.entries0 ∨ e ∈ imm := by
  rw [mem_entries0, mem_entries0,
    ← (built_buildTablesTree d.versions.next imm).mem_iff e, ← exists_or]
  exact exists_congr fun f => by rw [mem_l0_flush himms, or_and_right]

theorem entries1_flush : d.flush.entries1 = d.entries1 := by
  rw [flush_eq himms, entries1, VersionSet.files_l1_flush, entries1]

end

theorem lastSequence_flush (d : DbImpl) : d.flush.lastSequence = d.lastSequence := by
  cases himms : d.imms with
  | nil => rw [flush, himms]
  | cons imm imms => rw [flush_eq himms]

theorem DbImpl.tables_flush (himms : d.imms = imm :: imms) : d.tables = imm :: d.flush.tables := by
  rw [flush_eq himms, tables_eq himms, tables]

theorem mem_stored_flush (d : DbImpl) (e : Entry) : e ∈ d.stored ↔ e ∈ d.flush.stored := by
  cases himms : d.imms with
  | nil => rw [flush, himms]
  | cons imm imms =>
    rw [mem_stored, mem_stored, mem_entries0_flush himms, entries1_flush himms,
      tables_flush himms]
    simp only [exists_mem_cons_iff, or_assoc]
    rw [or_left_comm (a := e ∈ imm), or_left_comm (a := e ∈ imm)]

theorem Aged.flush (h : Aged d) (himms : d.imms = imm :: imms) : Aged d.flush := by
  refine h.moveOldest (tables_flush himms) fun e he => ?_
  rwa [mem_entries0_flush himms, entries1_flush himms, or_comm (a := e ∈ d.entries0),
    or_assoc] at he

theorem Layout.flush (h : Layout d) : Layout d.flush := by
  cases himms : d.imms with
  | nil =>
    rw [DbImpl.flush, himms]
    exact h
  | cons imm imms =>
    have hbuilt := built_buildTablesTree d.versions.next imm
    have haged := h.aged.flush himms
    have hsorted := h.sorted
    rw [tables_flush himms, forall_mem_cons] at hsorted
    have holder := h.files_older imm (tables_flush himms ▸ mem_cons_self)
    have hvalid : d.flush.versions.Valid := by
      rw [flush_eq himms]
      exact h.valid.flush hsorted.1
    have hl1 : d.flush.versions.l1.files = d.versions.l1.files := by
      rw [flush_eq himms]
      exact VersionSet.files_l1_flush _ _
    refine ⟨hvalid, hsorted.2, haged.tables_newer, haged.files_older, ?_, ?_, ?_⟩
    · intro f hf g hg hlt x hx y hy hkey
      rw [mem_l0_flush himms] at hf hg
      rcases hf with hf | hf
      · rcases hg with hg | hg
        · exact h.l0_older f hf g hg hlt x hx y hy hkey
        · have hold := h.valid.number_lt f (Or.inl hf)
          exact absurd (hold.trans_le (VersionSet.number_mem_range hbuilt.numbers hg).1)
            hlt.not_gt
      · rcases hg with hg | hg
        · have hx' := (hbuilt.mem_iff x).1 ⟨f, hf, hx⟩
          exact (holder x hx' y (Or.inl (mem_entries0.2 ⟨g, hg, hy⟩))).le
        · -- the new files are of different partitions
          have hb := (hbuilt.filed hf).boundary_eq_of_userRank_eq (hbuilt.filed hg) hx hy hkey
          rw [inj_on_of_nodup_map hbuilt.nodup hf hg hb] at hlt
          exact absurd hlt (lt_irrefl _)
    · intro x hx y hy hkey
      rw [mem_entries0_flush himms] at hx
      rw [entries1_flush himms] at hy
      rcases hx with hx | hx
      · exact h.l1_older x hx y hy hkey
      · exact (holder x hx y (Or.inr hy)).le
    · rw [hl1]
      exact h.ascending

end Flush

section Compact

variable {d : DbImpl} {v : VersionSet} {b : Word} {inputs files : List TableFile}

section

variable (hc : d.versions.Compacts b inputs files v)
include hc

theorem mem_entries0_compact (e : Entry) :
    e ∈ ({ d with versions := v } : DbImpl).entries0 ↔
      ∃ f ∈ d.versions.l0.files, f.timeBoundary ≠ b ∧ e ∈ f.entries := by
  rw [mem_entries0, hc.l0_eq]
  simp only [mem_filter, decide_eq_true_eq, and_assoc]

theorem mem_outputs_iff (e : Entry) :
    (∃ f ∈ files, e ∈ f.entries) ↔ ∃ f ∈ inputs, e ∈ f.entries := by
  rw [← mem_flatMap, hc.written.entries_eq, mem_mergeAll_iff]

theorem mem_entries1_compact (e : Entry) :
    e ∈ ({ d with versions := v } : DbImpl).entries1 ↔
      (∃ f ∈ d.versions.l1.files, f.timeBoundary ≠ b ∧ e ∈ f.entries) ∨
        ∃ f ∈ inputs, e ∈ f.entries := by
  rw [← mem_outputs_iff hc, entries1, mem_flatMap]
  simp only [hc.l1_perm.mem_iff, mem_append, mem_filter, decide_eq_true_eq, and_assoc,
    or_and_right, exists_or]

theorem mem_files_compact (e : Entry) :
    (e ∈ d.entries0 ∨ e ∈ d.entries1) ↔ e ∈ ({ d with versions := v } : DbImpl).entries0 ∨
      e ∈ ({ d with versions := v } : DbImpl).entries1 := by
  rw [mem_entries0_compact hc, mem_entries1_compact hc, mem_entries0, entries1,
    mem_flatMap]
  constructor
  · rintro (⟨f, hf, he⟩ | ⟨f, hf, he⟩)
    · by_cases hb : f.timeBoundary = b
      · exact Or.inr (Or.inr ⟨f, (hc.mem_inputs f).2 ⟨Or.inl hf, hb⟩, he⟩)
      · exact Or.inl ⟨f, hf, hb, he⟩
    · by_cases hb : f.timeBoundary = b
      · exact Or.inr (Or.inr ⟨f, (hc.mem_inputs f).2 ⟨Or.inr hf, hb⟩, he⟩)
      · exact Or.inr (Or.inl ⟨f, hf, hb, he⟩)
  · rintro (⟨f, hf, -, he⟩ | ⟨f, hf, -, he⟩ | ⟨f, hf, he⟩)
    · exact Or.inl ⟨f, hf, he⟩
    · exact Or.inr ⟨f, hf, he⟩
    · exact ((hc.mem_inputs f).1 hf).1.imp (fun hf => ⟨f, hf, he⟩) fun hf => ⟨f, hf, he⟩

theorem mem_stored_compact (e : Entry) :
    e ∈ d.stored ↔ e ∈ ({ d with versions := v } : DbImpl).stored := by
  rw [mem_stored, mem_stored, mem_files_compact hc]
  rfl

theorem VersionSet.Compacts.largest_lt_smallest
    {f g : TableFile} (hf : f ∈ files) (hg : g ∈ files) (hlt : f.number < g.number) :
    f.largest < g.smallest := by
  obtain ⟨i, hi⟩ := mem_iff_getElem?.1 hf
  obtain ⟨j, hj⟩ := mem_iff_getElem?.1 hg
  have hnumber : ∀ {i : ℕ} {f : TableFile}, files[i]? = some f → f.number = d.versions.next + i := by
    intro i f hi
    obtain ⟨hlen, hf⟩ := List.getElem?_eq_some_iff.1 hi
    have hmap := congrArg (fun l => l[i]?) hc.written.numbers
    rw [← hf]
    simpa [getElem?_range', hlen] using hmap
  rw [hnumber hi, hnumber hj] at hlt
  exact Merge.rel_of_getElem? hc.written.largest_lt_smallest (Nat.lt_of_add_lt_add_left hlt) hi hj

end

theorem toInt_ne {a b : Word} (h : a ≠ b) : a.toInt ≠ b.toInt := fun heq =>
  h (BitVec.eq_of_toInt_eq heq)

theorem Layout.compact (h : Layout d) (hc : d.versions.Compacts b inputs files v)
    (horder : ∀ g ∈ d.versions.l1.files, ∀ f ∈ inputs,
      (g.timeBoundary.toInt < b.toInt → g.largest < f.smallest) ∧
        (b.toInt < g.timeBoundary.toInt → f.largest < g.smallest)) :
    Layout { d with versions := v } := by
  have hfiled : ∀ f, f ∈ d.versions.l0.files ∨ f ∈ d.versions.l1.files → f.Filed := fun f hf =>
    hf.elim (h.valid.l0.filed f) (h.valid.l1.filed f)
  have hexact : ∀ f ∈ inputs, f.Exact := fun f hf =>
    ((hc.mem_inputs f).1 hf).1.elim (h.valid.l0.exact f) (h.valid.l1.exact f)
  refine ⟨hc.valid, h.sorted, h.tables_newer, ?_, ?_, ?_, ?_⟩
  · intro t ht x hx y hy
    exact h.files_older t ht x hx y ((mem_files_compact hc y).2 hy)
  · intro f hf g hg
    rw [hc.l0_eq] at hf hg
    exact h.l0_older f (mem_of_mem_filter hf) g (mem_of_mem_filter hg)
  · intro x hx y hy hkey
    rw [mem_entries0_compact hc] at hx
    rw [mem_entries1_compact hc] at hy
    obtain ⟨f, hf, hfb, hxf⟩ := hx
    have hx0 : x ∈ d.entries0 := mem_entries0.2 ⟨f, hf, hxf⟩
    rcases hy with ⟨g, hg, -, hyg⟩ | ⟨g, hg, hyg⟩
    · exact h.l1_older x hx0 y (mem_flatMap.2 ⟨g, hg, hyg⟩) hkey
    · -- the key lies in the partition, of which level 0 has nothing left
      obtain ⟨hgmem, hgb⟩ := (hc.mem_inputs g).1 hg
      have hb := (hfiled f (Or.inl hf)).boundary_eq_of_userRank_eq (hfiled g hgmem) hxf hyg hkey
      exact absurd (hb.trans hgb) hfb
  · intro f hf g hg hlt
    rw [hc.l1_perm.mem_iff, mem_append, mem_filter, decide_eq_true_eq] at hf hg
    have hle := TableFile.boundary_le_of_timeKey_le hlt.le
    rcases hf with ⟨hf, hfb⟩ | hf
    · rcases hg with ⟨hg, -⟩ | hg
      · exact h.ascending f hf g hg hlt
      · have hgb := (hc.written.partition_eq g hg).1
        obtain ⟨e, he, hkey⟩ := Option.map_eq_some_iff.1 (hc.written.smallest_eq g hg)
        obtain ⟨i, hi, hei⟩ := (mem_outputs_iff hc e).1 ⟨g, hg, mem_of_head? he⟩
        rw [hgb] at hle
        have hbefore := (horder f hf i hi).1 (lt_of_le_of_ne hle (toInt_ne hfb))
        rw [← hkey]
        exact hbefore.trans_le ((hexact i hi).smallest_le hei)
    · have hfb := (hc.written.partition_eq f hf).1
      rcases hg with ⟨hg, hgb⟩ | hg
      · obtain ⟨e, he, hkey⟩ := Option.map_eq_some_iff.1 (hc.written.largest_eq f hf)
        obtain ⟨i, hi, hei⟩ := (mem_outputs_iff hc e).1 ⟨f, hf, mem_of_getLast? he⟩
        rw [hfb] at hle
        have hbehind := (horder g hg i hi).2 (lt_of_le_of_ne hle (toInt_ne (Ne.symm hgb)))
        rw [← hkey]
        exact ((hexact i hi).le_largest hei).trans_lt hbehind
      · have hb := hfb.trans (hc.written.partition_eq g hg).1.symm
        refine hc.largest_lt_smallest hf hg ?_
        rcases Prod.Lex.toLex_lt_toLex.1 hlt with hlt | ⟨-, hlt⟩
        · rw [hb] at hlt
          exact absurd hlt (lt_irrefl _)
        · exact hlt

end Compact

theorem VersionSet.KeepsOrder.exists_partition {v : VersionSet} (h : v.KeepsOrder)
    {c : Compaction} (hc : pickCompaction v.l0 v.l1 = some c) :
    ∃ b, c.InOnePartition b ∧ KeyOrdered v c b := by
  cases hf : v.l0.files.head? with
  | none =>
    rw [pickCompaction, hf] at hc
    split at hc
    · cases hc
    · cases hc
  | some f => exact ⟨f.timeBoundary, h c hc f hf⟩

namespace Tracked

variable {fileSize : List Entry → ℕ} {maxOutputFileSize : ℕ} {s s' : Tracked} {op : DbOp}

theorem layout_step (h : Contents s ∧ Layout s.db) (hop : s.Allowed op)
    (hstep : s.step fileSize maxOutputFileSize op = .ok s') : Contents s' ∧ Layout s'.db := by
  obtain ⟨hc, hl⟩ := h
  cases op with
  | put k value =>
    cases hstep
    exact ⟨hc.put k value, hl.put hc.visible k value⟩
  | switch =>
    cases hstep
    exact ⟨hc.moved (mem_stored_switch s.db) rfl, hl.switch⟩
  | flush =>
    cases hstep
    exact ⟨hc.moved (mem_stored_flush s.db) (lastSequence_flush s.db), hl.flush⟩
  | compact =>
    cases hpick : pickCompaction s.db.versions.l0 s.db.versions.l1 with
    | none =>
      have hsame : s.db.versions.compact fileSize maxOutputFileSize = .ok s.db.versions := by
        simp only [VersionSet.compact, hpick]
      rw [step, hsame] at hstep
      cases hstep
      exact ⟨hc, hl⟩
    | some c =>
      obtain ⟨b, hb, horder⟩ := hop.exists_partition hpick
      obtain ⟨files, v, hv, hcompacts⟩ :=
        hl.valid.compacts fileSize maxOutputFileSize hpick hb
      rw [step, hv] at hstep
      cases hstep
      exact ⟨hc.moved (mem_stored_compact hcompacts) rfl, hl.compact hcompacts horder⟩

theorem layout_of_reaches (hs : Run.Reaches Allowed (step fileSize maxOutputFileSize) init s) :
    Contents s ∧ Layout s.db :=
  hs.invariant (P := fun s => Contents s ∧ Layout s.db) ⟨contents_init, layout_init⟩
    fun _ _ _ h hop hstep => layout_step h hop hstep

end Tracked

theorem Contents.written_eq (h : Contents s) {k : TreeKey} {o : Option Entry}
    (ho : Newest.IsNewest Entry.userRank Entry.seq s.db.stored k.rank o) :
    s.written k = o.map Entry.value := by
  obtain ⟨o', ho', hw⟩ := h.written k
  rw [hw, ho'.unique ho h.unique]

/-- While compactions keep the key order of level 1, the store is a map. -/
theorem db_isMap (fileSize : List Entry → ℕ) (maxOutputFileSize : ℕ) (s : Tracked)
    (hs : Run.Reaches Tracked.Allowed (Tracked.step fileSize maxOutputFileSize) Tracked.init s) :
    (∀ k, s.db.get k = s.written k) ∧
      (s.db.newIterator.Pairwise fun x y => x.1.rank < y.1.rank) ∧
      ∀ k value, (k, value) ∈ s.db.newIterator ↔ s.written k = some value := by
  obtain ⟨hc, hl⟩ := Tracked.layout_of_reaches hs
  have hreadable := hl.readable hc
  have hfirsts := hreadable.firsts_dbIter
  refine ⟨fun k => ?_, ?_, fun k value => ⟨fun hmem => ?_, fun hw => ?_⟩⟩
  · rw [hc.written_eq (hreadable.isNewest_getEntry k)]
    rfl
  · exact pairwise_map.2 hfirsts.ascending
  · obtain ⟨e, he, hpair⟩ := mem_map.1 hmem
    obtain ⟨rfl, rfl⟩ := Prod.mk.inj hpair
    exact hc.written_eq (hfirsts.newest e he).2
  · obtain ⟨o, ho, hwo⟩ := hc.written k
    obtain ⟨y, hy, rfl⟩ := Option.map_eq_some_iff.1 (hwo.symm.trans hw)
    obtain ⟨hys, hyk⟩ := ho.mem y hy
    obtain ⟨e, he, hey⟩ := hfirsts.covers y hys fun _ h => (nomatch h)
    have hnewest := (hfirsts.newest e he).2
    rw [hey, hyk] at hnewest
    have hey' := ho.unique hnewest hc.unique
    rw [hy] at hey'
    cases hey'
    exact mem_map.2 ⟨y, he, by rw [← TreeKey.rank_injective hyk]⟩

def ascendingRun : List DbOp :=
  [.put ⟨1, 1, 0⟩ [1], .put ⟨2, 1, 7200000⟩ [2], .put ⟨3, 1, 14400000⟩ [3],
    .put ⟨4, 1, 21600000⟩ [4], .put ⟨5, 1, 28800000⟩ [5], .put ⟨2, 1, 7200000⟩ [6], .switch,
    .flush, .compact, .compact]

theorem db_isMap_ascendingRun : ∃ s : Tracked, s.db.versions.l1.files.length = 2 ∧
    (∀ k, s.db.get k = s.written k) ∧
      (s.db.newIterator.Pairwise fun x y => x.1.rank < y.1.rank) ∧
      ∀ k value, (k, value) ∈ s.db.newIterator ↔ s.written k = some value := by
  have hrun : (Run.exec Tracked.Allowed (Tracked.step (fun _ => 0) 0) Tracked.init
      ascendingRun).map (fun s => s.db.versions.l1.files.length) = some 2 := by decide +kernel
  obtain ⟨s, hreach, hlen⟩ := Run.exists_reaches_of_exec hrun
  exact ⟨s, hlen, db_isMap (fun _ => 0) 0 s hreach⟩

def crossingRun : List DbOp :=
  [.put ⟨2, 1, 0⟩ [1], .put ⟨1, 1, 7200000⟩ [2], .put ⟨3, 1, 14400000⟩ [3],
    .put ⟨4, 1, 21600000⟩ [4], .put ⟨5, 1, 28800000⟩ [5], .switch, .flush, .compact, .compact]

/-- A key that was written is not found, and the iterator leaves it out. -/
theorem db_isMap_crossingRun : ∃ s, Run.Reaches (fun _ _ => True)
    (Tracked.step (fun _ => 0) 0) Tracked.init s ∧
      s.written ⟨1, 1, 7200000⟩ = some [2] ∧ s.db.get ⟨1, 1, 7200000⟩ = none ∧
      s.db.newIterator.map (fun x => x.1.sgid) = [2, 3, 4, 5] := by
  have hrun : (Run.exec (fun _ _ => True) (Tracked.step (fun _ => 0) 0) Tracked.init
      crossingRun).map (fun s => (s.written ⟨1, 1, 7200000⟩, s.db.get ⟨1, 1, 7200000⟩,
        s.db.newIterator.map fun x => x.1.sgid)) = some (some [2], none, [2, 3, 4, 5]) := by
    decide +kernel
  obtain ⟨s, hreach, hread⟩ := Run.exists_reaches_of_exec hrun
  obtain ⟨hwritten, hread⟩ := Prod.mk.inj hread
  obtain ⟨hget, hiter⟩ := Prod.mk.inj hread
  exact ⟨s, hreach, hwritten, hget, hiter⟩

end PromTCS
