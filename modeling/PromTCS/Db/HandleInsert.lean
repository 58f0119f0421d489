import PromTCS.Chunk.XORIterator
import PromTCS.Label.Label
import PromTCS.Lib.Run
import PromTCS.Lib.Tiling
import PromTCS.TreeSeries.Store

/-!
# Remote write

`HandleInsert` cuts the timeseries of a request into ranges of a thirty-second of
their number each and enqueues one task for every range. A task hands the samples of
its timeseries to an appender of its own: the first sample of a timeseries with its
labels, the others with the ids the appender gave out for them.

The tasks run on a pool, and what an appender gives out depends on the head they
share, so the ids are a parameter. The snappy and protobuf decoding of the body is
left out.
-/

namespace PromTCS

open List

structure TimeSeries where
  labels : Labels
  samples : List Sample
deriving DecidableEq, Repr

/-- `prometheus::WriteRequest`; the size of a repeated field is an `int`. -/
structure WriteRequest where
  timeseries : List TimeSeries
  size_lt : timeseries.length < 2 ^ 31

/-- A call of the appender of a task. -/
inductive AppenderCall
  | add (labels : Labels) (sample : Sample)
  | addFast (sgid mid : ℕ) (sample : Sample)
  | commit
deriving DecidableEq, Repr

namespace WriteRequest

/-- The body of the outer loop of `multi_add_fast`; `samples(0)` is taken whether there
is one or not. -/
def addSeries (ts : TimeSeries) (ids : ℕ × ℕ) : Except Fault (List AppenderCall) :=
  match ts.samples with
  | [] => .error .outOfBounds
  | first :: rest => .ok (.add ts.labels first :: rest.map (.addFast ids.1 ids.2))

/-- `multi_add_fast(appender, writeRequest, left, right, wg)`, with the calls it makes;
`ids i` is what `add` stores in `sgid` and `mid` for timeseries `i`. -/
def multiAddFast (req : WriteRequest) (ids : ℕ → ℕ × ℕ) (left right : ℕ) :
    Except Fault (List AppenderCall) := do
  let calls ← (List.range' left (right - left)).mapM fun i =>
    match req.timeseries[i]? with
    | some ts => addSeries ts (ids i)
    | none => .error .outOfBounds
  pure (calls.flatten ++ [.commit])

def batchSize (req : WriteRequest) : ℕ := req.timeseries.length / 32

/-- The batching loop, from `i` on; `none` when `fuel` rounds do not end it. -/
def batchLoop (req : WriteRequest) : ℕ → ℕ → Option (List (ℕ × ℕ))
  | 0, _ => none
  | fuel + 1, i =>
    if i < req.timeseries.length then do
      let rest ← req.batchLoop fuel (i + req.batchSize)
      pure ((i, min (i + req.batchSize) req.timeseries.length) :: rest)
    else pure []

/-- `HandleInsert`: the tasks with their ranges and the calls each makes. -/
def handleInsert (req : WriteRequest) (ids : ℕ → ℕ × ℕ) (fuel : ℕ) :
    Option (Except Fault (List ((ℕ × ℕ) × List AppenderCall))) :=
  (req.batchLoop fuel 0).map fun ranges =>
    ranges.mapM fun range => do
      let calls ← req.multiAddFast ids range.1 range.2
      pure (range, calls)

def handedOver (ts : TimeSeries) (ids : ℕ × ℕ) : List AppenderCall :=
  match ts.samples with
  | [] => []
  | first :: rest => .add ts.labels first :: rest.map (.addFast ids.1 ids.2)

structure ProcessedOnce (req : WriteRequest) (ids : ℕ → ℕ × ℕ)
    (tasks : List ((ℕ × ℕ) × List AppenderCall)) : Prop where
  disjoint : tasks.Pairwise fun a b => ∀ i, ¬ ((a.1.1 ≤ i ∧ i < a.1.2) ∧ b.1.1 ≤ i ∧ i < b.1.2)
  covers : ∀ i, (∃ task ∈ tasks, task.1.1 ≤ i ∧ i < task.1.2) ↔ i < req.timeseries.length
  handed : ∀ task ∈ tasks, task.2 = (List.range' task.1.1 (task.1.2 - task.1.1)).flatMap
    (fun i => (req.timeseries[i]?.map fun ts => handedOver ts (ids i)).getD []) ++ [.commit]

/-! ## The batching loop -/

variable {req : WriteRequest} {i : ℕ} {ts : TimeSeries}

theorem batchLoop_eq_none (hstep : req.batchSize = 0) (hi : i < req.timeseries.length) (fuel : ℕ) :
    req.batchLoop fuel i = none := by
  induction fuel with
  | zero => rfl
  | succ fuel ih =>
    rw [batchLoop, if_pos hi, hstep, Nat.add_zero, ih]
    rfl

theorem exists_batchLoop (hstep : 0 < req.batchSize) {fuel : ℕ}
    (hfuel : req.timeseries.length - i < fuel) :
    ∃ ranges, req.batchLoop fuel i = some ranges ∧
      Tiles (min i req.timeseries.length) req.timeseries.length ranges := by
  induction fuel generalizing i with
  | zero => exact absurd hfuel (Nat.not_lt_zero _)
  | succ fuel ih =>
    by_cases hi : i < req.timeseries.length
    · obtain ⟨rest, hrest, htiles⟩ := @ih (i + req.batchSize) (by omega)
      refine ⟨_, by rw [batchLoop, if_pos hi, hrest]; rfl, ?_⟩
      rw [Nat.min_eq_left hi.le]
      exact .cons (by omega) htiles
    · refine ⟨[], by rw [batchLoop, if_neg hi]; rfl, ?_⟩
      rw [Nat.min_eq_right (Nat.not_lt.1 hi)]
      exact .nil _

/-! ## The tasks -/

theorem addSeries_eq_ok (h : ts.samples ≠ []) (ids : ℕ × ℕ) :
    addSeries ts ids = .ok (handedOver ts ids) := by
  cases hs : ts.samples with
  | nil => exact absurd hs h
  | cons first rest => simp only [addSeries, handedOver, hs]

theorem samples_ne_nil_of_addSeries {ids : ℕ × ℕ} {calls : List AppenderCall}
    (h : addSeries ts ids = .ok calls) : ts.samples ≠ [] := by
  intro hnil
  rw [addSeries, hnil] at h
  cases h

theorem multiAddFast_eq_ok (hreq : ∀ ts ∈ req.timeseries, ts.samples ≠ []) (ids : ℕ → ℕ × ℕ)
    {left right : ℕ} (hright : right ≤ req.timeseries.length) :
    req.multiAddFast ids left right = .ok ((List.range' left (right - left)).flatMap
      (fun i => (req.timeseries[i]?.map fun ts => handedOver ts (ids i)).getD []) ++
        [.commit]) := by
  have hrounds : ∀ i ∈ List.range' left (right - left),
      (match req.timeseries[i]? with
        | some ts => addSeries ts (ids i)
        | none => .error .outOfBounds) =
      .ok ((req.timeseries[i]?.map fun ts => handedOver ts (ids i)).getD []) := by
    intro i hi
    rw [mem_range'_1] at hi
    have hlt : i < req.timeseries.length := by omega
    rw [getElem?_eq_getElem hlt]
    exact addSeries_eq_ok (hreq _ (getElem_mem hlt)) (ids i)
  rw [multiAddFast, Run.mapM_eq_ok hrounds, flatMap_def]
  rfl

theorem samples_ne_nil_of_multiAddFast {ids : ℕ → ℕ × ℕ} {left right : ℕ}
    {calls : List AppenderCall} (h : req.multiAddFast ids left right = .ok calls) (hleft : left ≤ i)
    (hright : i < right) (hts : req.timeseries[i]? = some ts) : ts.samples ≠ [] := by
  obtain ⟨parts, hparts, -⟩ := Run.bind_eq_ok h
  have hmem : i ∈ List.range' left (right - left) := by
    rw [mem_range'_1]
    omega
  obtain ⟨part, -, hpart⟩ := (Run.mem_of_mapM_eq_ok hparts).1 i hmem
  rw [hts] at hpart
  exact samples_ne_nil_of_addSeries hpart

theorem exists_processedOnce (ids : ℕ → ℕ × ℕ)
    (hsize : req.timeseries.length = 0 ∨ 32 ≤ req.timeseries.length)
    (hreq : ∀ ts ∈ req.timeseries, ts.samples ≠ []) :
    ∃ fuel tasks, req.handleInsert ids fuel = some (.ok tasks) ∧
      req.ProcessedOnce ids tasks := by
  obtain ⟨fuel, ranges, hloop, htiles⟩ :
      ∃ fuel ranges, req.batchLoop fuel 0 = some ranges ∧
        Tiles 0 req.timeseries.length ranges := by
    rcases hsize with hzero | hsize
    · refine ⟨1, [], by simp [batchLoop, hzero], ?_⟩
      rw [hzero]
      exact .nil 0
    · have hstep : 0 < req.batchSize := Nat.div_pos hsize (by decide)
      obtain ⟨ranges, hloop, htiles⟩ := exists_batchLoop hstep
        (show req.timeseries.length - 0 < req.timeseries.length + 1 from Nat.lt_succ_self _)
      rw [Nat.min_eq_left (Nat.zero_le _)] at htiles
      exact ⟨_, ranges, hloop, htiles⟩
  have hrounds : ∀ range ∈ ranges, (do
      let calls ← req.multiAddFast ids range.1 range.2
      pure (range, calls) : Except Fault _) =
      .ok (range, (List.range' range.1 (range.2 - range.1)).flatMap
        (fun i => (req.timeseries[i]?.map fun ts => handedOver ts (ids i)).getD []) ++
          [.commit]) := by
    intro range hrange
    rw [multiAddFast_eq_ok hreq ids (htiles.bounds range hrange).2]
    rfl
  refine ⟨fuel, _, by rw [handleInsert, hloop, Option.map_some, Run.mapM_eq_ok hrounds],
    ⟨?_, fun i => ?_, ?_⟩⟩
  · rw [pairwise_map]
    exact htiles.disjoint
  · have hmem := htiles.mem_iff i
    rw [and_iff_right (Nat.zero_le i)] at hmem
    simpa using hmem
  · intro task htask
    obtain ⟨range, -, rfl⟩ := mem_map.1 htask
    rfl

end WriteRequest

/-- `HandleInsert` processes every timeseries of a request once exactly when the
request is empty or has at least 32 timeseries, and each of these has a sample. -/
theorem handleInsert_processedOnce_iff (req : WriteRequest) (ids : ℕ → ℕ × ℕ) :
    (∃ fuel tasks, req.handleInsert ids fuel = some (.ok tasks) ∧ req.ProcessedOnce ids tasks) ↔
      (req.timeseries.length = 0 ∨ 32 ≤ req.timeseries.length) ∧
        ∀ ts ∈ req.timeseries, ts.samples ≠ [] := by
  constructor
  · rintro ⟨fuel, tasks, hinsert, hp⟩
    obtain ⟨ranges, hloop, htasks⟩ := Option.map_eq_some_iff.1 hinsert
    constructor
    · by_contra hsize
      rw [not_or, Nat.not_le] at hsize
      have hstep : req.batchSize = 0 := Nat.div_eq_of_lt hsize.2
      rw [WriteRequest.batchLoop_eq_none hstep (Nat.pos_of_ne_zero hsize.1)] at hloop
      cases hloop
    · intro ts hts
      obtain ⟨i, hi⟩ := mem_iff_getElem?.1 hts
      obtain ⟨task, htask, hleft, hright⟩ :=
        (hp.covers i).2 (List.getElem?_eq_some_iff.1 hi).1
      obtain ⟨range, -, hrange⟩ := (Run.mem_of_mapM_eq_ok htasks).2 task htask
      obtain ⟨calls, hcalls, heq⟩ := Run.bind_eq_ok hrange
      cases heq
      exact WriteRequest.samples_ne_nil_of_multiAddFast hcalls hleft hright hi
  · rintro ⟨hsize, hreq⟩
    exact WriteRequest.exists_processedOnce ids hsize hreq

def singleRequest : WriteRequest where
  timeseries := [⟨[⟨metricName, [109]⟩], [(0, 0)]⟩]
  size_lt := by decide

/-- The batching loop does not end on it. -/
theorem handleInsert_singleRequest :
    ¬ ∃ fuel tasks, singleRequest.handleInsert (fun _ => (1, 1)) fuel = some (.ok tasks) ∧
      singleRequest.ProcessedOnce (fun _ => (1, 1)) tasks := by
  rintro ⟨fuel, tasks, hinsert, -⟩
  rw [WriteRequest.handleInsert,
    WriteRequest.batchLoop_eq_none rfl (show 0 < singleRequest.timeseries.length by decide)]
    at hinsert
  cases hinsert

end PromTCS
