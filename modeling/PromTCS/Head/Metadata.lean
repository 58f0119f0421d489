import PromTCS.Head.TreeMemSeries

/-!
# The metadata of flushed chunks

A put carries the times `tuple_st_` and `max_time_` of the head as the first and
the last time of its chunk, and `num_samples_` counts the samples of the head.
The three are kept up to date around the flushes, and they are right as long as
no sample ends exactly in the last byte of a chunk: in that branch the chunk is
flushed with the sample in it, but before `max_time_` is set to its time, and the
sample is then counted for the next chunk as well.
-/

namespace PromTCS

open List TreeMemSeries

namespace TreeMemSeries

/-- Every put names the times of the first and the last sample of its chunk, and
`num_samples_` is the number of samples in the head chunk. -/
def MetadataExact (p : TreeMemSeries × List PutCall) : Prop :=
  (∀ put ∈ p.2, ∃ l, DecodesTo put.value l ∧
    l.head?.map Prod.fst = some put.startTime ∧
    l.getLast?.map Prod.fst = some put.endTime) ∧
  ∃ l, p.1.HeadDecodesTo l ∧ p.1.numSamples = l.length

variable {l : List Sample}

theorem decodesTo_unique {value : List Byte} {l' : List Sample} (h : DecodesTo value l)
    (h' : DecodesTo value l') : l = l' := by
  obtain ⟨it, hdrain, -⟩ := h fun _ => 0#8
  obtain ⟨it', hdrain', -⟩ := h' fun _ => 0#8
  rw [hdrain, Option.some.injEq, Prod.mk.injEq] at hdrain'
  exact hdrain'.1

theorem appendAll_append (m : TreeMemSeries) (xs ys : List Sample) :
    m.appendAll (xs ++ ys) = (((m.appendAll xs).1.appendAll ys).1,
      (m.appendAll xs).2 ++ ((m.appendAll xs).1.appendAll ys).2) := by
  induction xs generalizing m with
  | nil => rfl
  | cons x xs ih => simp [appendAll, ih]

theorem appendAll_concat (m : TreeMemSeries) (xs : List Sample) (timestamp value : Word) :
    m.appendAll (xs ++ [(timestamp, value)]) =
      (((m.appendAll xs).1.append timestamp value).1,
        (m.appendAll xs).2 ++ ((m.appendAll xs).1.append timestamp value).2.toList) := by
  rw [appendAll_append]
  simp [appendAll]

theorem maxTime_appendAll (m : TreeMemSeries) {xs : List Sample} {x : Sample}
    (h : xs.getLast? = some x) : (m.appendAll xs).1.maxTime = x.1 := by
  cases xs using List.reverseRecOn with
  | nil => cases h
  | append_singleton xs y =>
    rw [getLast?_concat, Option.some.injEq] at h
    obtain ⟨timestamp, value⟩ := y
    rw [appendAll_concat, maxTime_append, ← h]

/-- The metadata of a head that holds `l`. -/
structure Counts (m : TreeMemSeries) (l : List Sample) : Prop where
  numSamples_eq : m.numSamples = l.length
  tupleSt_eq : ∀ x, l.head? = some x → m.tupleSt = x.1
  maxTime_eq : ∀ x, l.getLast? = some x → m.maxTime = x.1

theorem counts_init (sourceId metricId : ℕ) (tupleSt : Word) :
    (init sourceId metricId tupleSt).Counts [] :=
  ⟨rfl, by simp, by simp⟩

theorem Counts.put_exact {m : TreeMemSeries} (hc : m.Counts l) (hne : l ≠ []) {stream : List Byte}
    {put : PutCall} (hput : m.PutOf stream put) :
    l.head?.map Prod.fst = some put.startTime ∧
      l.getLast?.map Prod.fst = some put.endTime := by
  have hhead := head?_eq_some_head hne
  have hlast := getLast?_eq_some_getLast hne
  constructor
  · rw [hput.startTime_eq, hc.tupleSt_eq _ hhead, hhead]
    rfl
  · rw [hput.endTime_eq, hc.maxTime_eq _ hlast, hlast]
    rfl

theorem Counts.append {m : TreeMemSeries} (hc : m.Counts l) (hh : m.Holds l)
    {timestamp value : Word} (hfit : ¬ m.exactFit timestamp value = true) :
    ∃ l', (m.append timestamp value).1.Holds l' ∧ (m.append timestamp value).1.Counts l' ∧
      ∀ put ∈ (m.append timestamp value).2.toList, ∃ chunk, DecodesTo put.value chunk ∧
        chunk.head?.map Prod.fst = some put.startTime ∧
        chunk.getLast?.map Prod.fst = some put.endTime := by
  by_cases hover : m.overflows timestamp value = true
  · obtain ⟨put, hsome, hput, hhead⟩ := append_of_overflows hfit hover
    have hne : l ≠ [] := ne_nil_of_overflows hh hover
    refine ⟨[(timestamp, value)], holds_singleton hhead, ⟨hhead.numSamples_eq, ?_, ?_⟩, ?_⟩
    · rintro x ⟨⟩
      exact hhead.tupleSt_eq
    · rintro x ⟨⟩
      exact maxTime_append m timestamp value
    · intro put' hmem
      rw [hsome, Option.toList_some, mem_singleton] at hmem
      subst hmem
      exact ⟨l, hh.decodesTo_of_overflows hover hput, hc.put_exact hne hput⟩
  · obtain ⟨hnone, hhead⟩ := append_of_fits hfit hover
    refine ⟨l ++ [(timestamp, value)], hh.append_fits hfit hover, ⟨?_, ?_, ?_⟩, ?_⟩
    · rw [hhead.numSamples_eq, hc.numSamples_eq]
      simp
    · intro x hx
      rw [hhead.tupleSt_eq, hc.numSamples_eq]
      cases l with
      | nil =>
        rw [nil_append, head?_cons, Option.some.injEq] at hx
        subst hx
        rfl
      | cons y l =>
        rw [if_neg (by simp; omega)]
        exact hc.tupleSt_eq x hx
    · intro x hx
      rw [getLast?_concat, Option.some.injEq] at hx
      rw [maxTime_append, ← hx]
    · simp [hnone]

theorem metadataExact_of_no_exactFit {m₀ : TreeMemSeries} (hh : m₀.Holds [])
    (hc : m₀.Counts []) (xs : List Sample)
    (hfit : ∀ pre timestamp value, pre ++ [(timestamp, value)] <+: xs →
      ¬ (m₀.appendAll pre).1.exactFit timestamp value = true) :
    ∃ l, (m₀.appendAll xs).1.Holds l ∧ (m₀.appendAll xs).1.Counts l ∧
      ∀ put ∈ (m₀.appendAll xs).2, ∃ chunk, DecodesTo put.value chunk ∧
        chunk.head?.map Prod.fst = some put.startTime ∧
        chunk.getLast?.map Prod.fst = some put.endTime := by
  induction xs using List.reverseRecOn with
  | nil => exact ⟨[], hh, hc, by simp [appendAll]⟩
  | append_singleton xs x ih =>
    obtain ⟨timestamp, value⟩ := x
    obtain ⟨l, hl, hcl, hputs⟩ := ih fun pre t v hpre =>
      hfit pre t v (hpre.trans (prefix_append xs _))
    obtain ⟨l', hl', hcl', hput'⟩ := hcl.append hl
      (hfit xs timestamp value (prefix_refl _))
    rw [appendAll_concat]
    refine ⟨l', hl', hcl', fun put hmem => ?_⟩
    rcases mem_append.1 hmem with hmem | hmem
    · exact hputs put hmem
    · exact hput' put hmem

theorem not_metadataExact_of_exactFit {m₀ : TreeMemSeries} (hh : m₀.Holds [])
    {pre : List Sample} {timestamp value : Word}
    (hinc : (pre ++ [(timestamp, value)]).Pairwise fun x y => x.1.toInt < y.1.toInt)
    (hfit : (m₀.appendAll pre).1.exactFit timestamp value = true) :
    ¬ MetadataExact (m₀.appendAll (pre ++ [(timestamp, value)])) := by
  rintro ⟨hputs, -⟩
  obtain ⟨chunks, l, -, hl, happ⟩ := hh.appendAll pre
  obtain ⟨put, hsome, hput, -⟩ := append_of_exactFit hfit
  have hmem : put ∈ (m₀.appendAll (pre ++ [(timestamp, value)])).2 := by
    rw [appendAll_concat, hsome]
    simp
  obtain ⟨chunk, hdec, -, hlast⟩ := hputs put hmem
  rw [← decodesTo_unique (hl.decodesTo_of_exactFit hfit hput) hdec, getLast?_concat,
    Option.map_some, Option.some.injEq, hput.endTime_eq] at hlast
  cases pre using List.reverseRecOn with
  | nil => exact ne_nil_of_exactFit hl hfit (append_eq_nil_iff.1 happ).2
  | append_singleton pre x =>
    rw [maxTime_appendAll m₀ (getLast?_concat)] at hlast
    have hlt := (pairwise_append.1 hinc).2.2 x (by simp) (timestamp, value) (by simp)
    rw [show timestamp = x.1 from hlast] at hlt
    exact hlt.ne rfl

end TreeMemSeries

/-- For samples with increasing times, the metadata of the head and of its puts
are right after every call of `append` exactly when no sample of the sequence
ends in the last byte of a chunk with at most two bits left. -/
theorem treeMemSeries_metadataExact_iff (sourceId metricId : ℕ) (tupleSt : Word)
    (samples : List Sample)
    (hinc : samples.Pairwise fun x y => x.1.toInt < y.1.toInt) :
    (∀ pre, pre <+: samples → TreeMemSeries.MetadataExact
        ((TreeMemSeries.init sourceId metricId tupleSt).appendAll pre)) ↔
      ∀ pre timestamp value, pre ++ [(timestamp, value)] <+: samples →
        ((TreeMemSeries.init sourceId metricId tupleSt).appendAll pre).1.exactFit
          timestamp value = false := by
  have hh := holds_init sourceId metricId tupleSt
  constructor
  · intro hexact pre timestamp value hpre
    by_contra hfit
    rw [Bool.not_eq_false] at hfit
    exact not_metadataExact_of_exactFit hh (hinc.sublist hpre.sublist) hfit
      (hexact _ hpre)
  · intro hfit pre hpre
    obtain ⟨l, hl, hcl, hputs⟩ := metadataExact_of_no_exactFit hh
      (counts_init sourceId metricId tupleSt) pre fun pre' t v hpre' => by
        rw [hfit pre' t v (hpre'.trans hpre)]
        exact Bool.false_ne_true
    exact ⟨hputs, l, hl.headDecodesTo, hcl.numSamples_eq⟩

/-- Three samples, none of which fills a chunk. -/
theorem treeMemSeries_metadataExact_iff_short :
    ([(5#64, 1#64), (9#64, 3#64), (14#64, 0#64)] : List Sample).Pairwise
        (fun x y => x.1.toInt < y.1.toInt) ∧
      ((∀ pre, pre <+: [(5#64, 1#64), (9#64, 3#64), (14#64, 0#64)] →
          TreeMemSeries.MetadataExact ((TreeMemSeries.init 1 1 0#64).appendAll pre)) ↔
        ∀ pre timestamp value,
          pre ++ [(timestamp, value)] <+: [(5#64, 1#64), (9#64, 3#64), (14#64, 0#64)] →
          ((TreeMemSeries.init 1 1 0#64).appendAll pre).1.exactFit timestamp value = false) :=
  ⟨by decide, treeMemSeries_metadataExact_iff 1 1 0#64 _ (by decide)⟩

def nearlyFullSamples : List Sample :=
  [(0#64, 0#64), (1#64, 0#64), (1048578#64, 0x8000000000000001#64), (3145731#64, 0#64),
    (6291460#64, 0x8000000000000001#64), (10485765#64, 0#64),
    (15728646#64, 0x8000000000000001#64), (22020103#64, 0#64),
    (29360136#64, 0x8000000000000001#64), (37748745#64, 0#64),
    (47185930#64, 0x8000000000000001#64), (57671691#64, 0#64),
    (69206028#64, 0x8000000000000001#64), (81788941#64, 0#64),
    (95420430#64, 0x8000000000000001#64), (109182991#64, 0x8000000000000001#64),
    (122945553#64, 0x8000000000000001#64)]

/-- One more sample at the same distance, with the same value, takes two bits: the
chunk is put with the end time of the sample before it. -/
theorem treeMemSeries_metadata_exactFit :
    (nearlyFullSamples ++ [(136708115#64, 0x8000000000000001#64)]).Pairwise
        (fun x y => x.1.toInt < y.1.toInt) ∧
      ¬ TreeMemSeries.MetadataExact ((TreeMemSeries.init 1 1 0#64).appendAll
        (nearlyFullSamples ++ [(136708115#64, 0x8000000000000001#64)])) := by
  have hinc : (nearlyFullSamples ++ [(136708115#64, 0x8000000000000001#64)]).Pairwise
      (fun x y => x.1.toInt < y.1.toInt) := by decide
  refine ⟨hinc, not_metadataExact_of_exactFit
    (holds_init 1 1 0#64) hinc ?_⟩
  decide +kernel

end PromTCS
