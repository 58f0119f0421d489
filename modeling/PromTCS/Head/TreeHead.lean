import PromTCS.Index.PrefixPostings
import PromTCS.Label.Label
import PromTCS.Lib.Interner
import PromTCS.Lib.Run
import PromTCS.TreeSeries.Store

/-!
# The series of the head

The head gives every source, named by the text of its labels, and every metric an id,
and keeps one `TreeMemSeries` for each pair of ids. A series is found by its labels
through these ids.

A pointer to a `TreeMemSeries` is the number of the object among those allocated,
from one on. The hash tables are maps, each call runs alone, and an access beyond the
end of `source_labels_ptr_` or `metric_labels_ptr_` ends the run with a `Fault`. The
flat copy of the forward index, the queue of hot labels, the postings on disk and the
`MemSource` objects are left out.
-/

namespace PromTCS

/-- `MAX_SOURCE_NUM`, the size of `source_labels_ptr_`. -/
def maxSourceNum : ℕ := 2 ^ 20

/-- `MAX_METRIC_NUM`, the size of `metric_labels_ptr_`. -/
def maxMetricNum : ℕ := 512

structure TreeHead where
  sourceThmap : List Byte → Option ℕ
  metricThmap : List Byte → Option ℕ
  lastSourceGroupId : ℕ
  lastMetricId : ℕ
  sourceLabelsPtr : ℕ → Labels
  metricLabelsPtr : ℕ → Option Label
  invertedIndex : Label → Option PrefixPostingsV2
  forwardIndex : ℕ × ℕ → Option ℕ
  nseries : ℕ

namespace TreeHead

def init : TreeHead where
  sourceThmap := fun _ => none
  metricThmap := fun _ => none
  lastSourceGroupId := 0
  lastMetricId := 0
  sourceLabelsPtr := fun _ => []
  metricLabelsPtr := fun _ => none
  invertedIndex := fun _ => none
  forwardIndex := fun _ => none
  nseries := 0

variable (h : TreeHead) (lset : Labels)

/-- The head with the next source id given to the source of `lset`; the shared labels
are those after the first. -/
def newSource : TreeHead :=
  { h with
    lastSourceGroupId := h.lastSourceGroupId + 1
    sourceThmap :=
      Function.update h.sourceThmap (labelSourceGroup lset) (some (h.lastSourceGroupId + 1))
    sourceLabelsPtr :=
      Function.update h.sourceLabelsPtr (h.lastSourceGroupId + 1) lset.tail }

/-- `get_or_create_source_id(lset, is_exist, epoch)`, with the id and `is_exist`. -/
def getOrCreateSourceId (isExist : Bool) :
    Except Fault ((ℕ × Bool) × TreeHead) :=
  if lset.isEmpty then pure ((0, isExist), h)
  else
    match h.sourceThmap (labelSourceGroup lset) with
    | some sgid => pure ((sgid, isExist), h)
    | none =>
      if maxSourceNum ≤ h.lastSourceGroupId + 1 then throw .outOfBounds
      else pure ((h.lastSourceGroupId + 1, false), h.newSource lset)

/-- The head with the next metric id given to the metric of `lset`; the shared label is
the first. -/
def newMetric : TreeHead :=
  { h with
    lastMetricId := h.lastMetricId + 1
    metricThmap := Function.update h.metricThmap (labelMetric lset) (some (h.lastMetricId + 1))
    metricLabelsPtr := Function.update h.metricLabelsPtr (h.lastMetricId + 1) lset.head? }

/-- `get_or_create_metric_id(lset, is_exist, epoch)`, with the id and `is_exist`. -/
def getOrCreateMetricId (isExist : Bool) :
    Except Fault ((ℕ × Bool) × TreeHead) :=
  if lset.isEmpty then pure ((0, isExist), h)
  else
    match h.metricThmap (labelMetric lset) with
    | some mid => pure ((mid, isExist), h)
    | none =>
      if maxMetricNum ≤ h.lastMetricId + 1 then throw .outOfBounds
      else pure ((h.lastMetricId + 1, false), h.newMetric lset)

/-- `inverted_index_.add(id, ls)`: the id is inserted into the postings of every label
but `__name__`. -/
def addPostings (h : TreeHead) (id : ℕ) (ls : Labels) : TreeHead :=
  { h with
    invertedIndex := (sourceLabels ls).foldl (fun index l =>
      Function.update index l (some (((index l).getD .empty).insert id))) h.invertedIndex }

/-- A `TreeMemSeries` is allocated and put into the forward index. -/
def newSeries (h : TreeHead) (key : ℕ × ℕ) : TreeHead :=
  { h with
    nseries := h.nseries + 1
    forwardIndex := Function.update h.forwardIndex key (some (h.nseries + 1)) }

/-- The end of `get_or_create_by_thmap`: the series is in the forward index or is
allocated and put there. -/
def findSeries (h : TreeHead) (key : ℕ × ℕ) : (ℕ × Bool) × TreeHead :=
  match h.forwardIndex key with
  | some series => ((series, false), h)
  | none => ((h.nseries + 1, true), h.newSeries key)

/-- `get_or_create_by_thmap(lset, epoch)`, with the series and whether it is new. -/
def getOrCreateByThmap :
    Except Fault ((ℕ × Bool) × TreeHead) := do
  let ((sgid, isExist), h) ← h.getOrCreateSourceId lset true
  let ((mid, isExist), h) ← h.getOrCreateMetricId lset isExist
  let h := if isExist then h else h.addPostings sgid lset
  pure (h.findSeries (sgid, mid))

def getOrCreateAll (h : TreeHead) : List Labels → Except Fault (List ℕ × TreeHead)
  | [] => pure ([], h)
  | lset :: lsets => do
    let ((series, _), h) ← h.getOrCreateByThmap lset
    let (rest, h) ← h.getOrCreateAll lsets
    pure (series :: rest, h)

end TreeHead

/-- A label set as remote write delivers it: there is a `__name__`, and the names are
pairwise distinct and sorted. -/
structure WellFormed (lset : Labels) : Prop where
  named : ∃ l ∈ lset, l.label = metricName
  sorted : (lset.map Label.label).Pairwise (· < ·)

end PromTCS
