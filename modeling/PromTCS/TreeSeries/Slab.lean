import Mathlib.Data.Fintype.Prod
import Mathlib.Data.List.Sort
import PromTCS.Base.Endian

/-!
# Slabs and their index

The slab store keeps chunks in slabs of sixteen items. A `SlabInfo` describes a
slab: the class of series it serves, one slot for each series with an item in it,
with the times its chunks cover, and the number of items written. A pointer to a
`SlabInfo` is here the number of the slab in the memory or in the disk table,
which is what `slab_id_` and `mem_` say of it and what no function changes.

The ordered index `mass_tree_` maps the keys of the slots, a start and an end key
each, to slabs.
-/

namespace PromTCS

def chunkSize : ℕ := 248

/-- `CX_NUM` and `CY_NUM`. -/
def cxNum : ℕ := 100

def cyNum : ℕ := 10000

/-- `slab_size_ / SLAB_ITEM_SIZE`, which is also `MAX_SERIES_NUM`. -/
def maxAllocItem : ℕ := 16

/-- The arguments of a call of `ConPutKV`. -/
structure PutCall where
  sourceId : ℕ
  metricId : ℕ
  startTime : Word
  endTime : Word
  value : List Byte
  txn : ℤ
deriving DecidableEq, Repr

structure Item where
  timestamp : ℕ
  chunk : List Byte
deriving DecidableEq, Repr

/-- The items of a slab, by position. -/
abbrev Slab := ℕ → Item

/-- A position of `ctable[CX_NUM][CY_NUM]`. -/
abbrev ClassId := Fin cxNum × Fin cyNum

/-- `class_metric_id_` and `class_source_id_` of a class are its position. The
value `UINT32_MAX` of `slab_id_`, no slab, is `none`. -/
structure SlabClass where
  slabId : Option ℕ
  txn : ℕ → ℤ

/-- Entry `j` of the arrays `source_id_`, `metric_id_`, `start_time_` and
`end_time_`; the ids are folded into one byte. -/
structure Slot where
  sourceId : ℕ
  metricId : ℕ
  startTime : ℕ
  endTime : ℕ
deriving DecidableEq, Repr

/-- `idx_` is the length of `slots`. -/
structure SlabInfo where
  cid : ClassId
  slots : List Slot
  nalloc : ℕ
  free : Bool
deriving DecidableEq

namespace SlabInfo

def empty : SlabInfo where
  cid := (⟨0, by decide⟩, ⟨0, by decide⟩)
  slots := []
  nalloc := 0
  free := true

def freeSlab (info : SlabInfo) : SlabInfo :=
  { info with free := true, nalloc := 0, slots := [] }

def copyInfo (dsinfo ssinfo : SlabInfo) : SlabInfo :=
  { dsinfo with cid := ssinfo.cid, slots := ssinfo.slots, nalloc := ssinfo.nalloc }

def getSinfoSourceID (info : SlabInfo) (slot : Slot) : ℕ :=
  slot.sourceId * cyNum + info.cid.2

def getSinfoMetricID (info : SlabInfo) (slot : Slot) : ℕ :=
  slot.metricId * cxNum + info.cid.1

def slabFull (info : SlabInfo) : Bool :=
  info.nalloc == maxAllocItem

end SlabInfo

/-- The class `ctable[metric_id % CX_NUM][source_id % CY_NUM]`. -/
def classOf (sourceId metricId : ℕ) : ClassId :=
  (⟨metricId % cxNum, Nat.mod_lt _ (by decide)⟩, ⟨sourceId % cyNum, Nat.mod_lt _ (by decide)⟩)

/-- The class of the series of a chunk. -/
abbrev PutCall.cid (call : PutCall) : ClassId := classOf call.sourceId call.metricId

/-- `(uint8_t)(source_id / CY_NUM)`. -/
def foldSource (sourceId : ℕ) : ℕ := sourceId / cyNum % 256

/-- `(uint8_t)(metric_id / CX_NUM)`. -/
def foldMetric (metricId : ℕ) : ℕ := metricId / cxNum % 256

/-- What a pointer to a `SlabInfo` points at. -/
inductive Place
  | mem (slabId : ℕ)
  | disk (slabId : ℕ)
deriving DecidableEq, Repr

/-- A key of the index before `EnCodeKey`. -/
structure Key where
  sourceId : ℕ
  metricId : ℕ
  time : ℕ
deriving DecidableEq, Repr

namespace Key

def cmp : Key → Key → Ordering :=
  compareLex (compareOn sourceId) (compareLex (compareOn fun k => k.metricId % 256)
    (compareLex (compareOn fun k => k.metricId / 256) (compareOn time)))

instance : Std.TransCmp cmp := inferInstanceAs (Std.TransCmp (compareLex _ _))

theorem cmp_eq_iff (a b : Key) : cmp a b = .eq ↔ a = b := by
  obtain ⟨s, m, t⟩ := a
  obtain ⟨s', m', t'⟩ := b
  simp only [cmp, compareLex_eq_eq, compareOn, Nat.compare_eq_eq, Key.mk.injEq]
  omega

instance : Std.LawfulEqCmp cmp where
  eq_of_compare h := (cmp_eq_iff _ _).1 h

end Key

abbrev MassTree := Std.TreeMap Key Place Key.cmp

namespace MassTree

variable (t : MassTree) (k : Key) (p : Place)

/-- `InsertMT`: a key that is present keeps its value. -/
def insertMT : MassTree :=
  t.insertIfNew k p

def removeMT (t : MassTree) (k : Key) : MassTree :=
  t.erase k

/-- `UpdateMT`: an absent key stays absent. -/
def updateMT : MassTree :=
  t.modify k fun _ => p

theorem getElem?_insertMT (a : Key) :
    (t.insertMT k p)[a]? = if k = a ∧ t[k]? = none then some p else t[a]? := by
  rw [insertMT, Std.TreeMap.getElem?_insertIfNew]
  have hmem : (¬ k ∈ t) ↔ t[k]? = none := by
    rw [Std.TreeMap.mem_iff_isSome_getElem?, Option.not_isSome_iff_eq_none]
  simp only [Key.cmp_eq_iff, hmem]

theorem getElem?_removeMT (t : MassTree) (k a : Key) :
    (t.removeMT k)[a]? = if k = a then none else t[a]? := by
  rw [removeMT, Std.TreeMap.getElem?_erase]
  simp

theorem getElem?_updateMT (a : Key) :
    (t.updateMT k p)[a]? = if k = a then t[a]?.map fun _ => p else t[a]? := by
  rw [updateMT, Std.TreeMap.getElem?_modify]
  by_cases h : k = a
  · subst h
    simp
  · simp [h]

end MassTree

end PromTCS
