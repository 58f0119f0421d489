import PromTCS.Lib.RowMajor
import PromTCS.Querier.LevelIterators
import PromTCS.Querier.SlabArrayIterator

/-!
# Values of the levels

`flush_db` stores the items of a series in a slab one after another as one value. The iterators
over the levels read every value as a slab: they set `nalloc_` to the number of items of a full
slab, and the slab to the address of the value. Behind a shorter value they read what follows it
in the block or in the arena.
-/

namespace PromTCS

open List FlushHead XORChunk

open BitString

def slabItemSize : ℕ := 256

def itemBytes (item : Item) : List Byte :=
  Coding.encodeFixed 8 item.timestamp ++ item.chunk

def itemOfBytes (bytes : List Byte) : Item where
  timestamp := Coding.decodeFixed 8 bytes
  chunk := bytes.drop 8

/-- The bytes that `flush_db` copies into `slab_buffer_` and puts into the database. -/
def slabValue (items : List Item) : List Byte :=
  items.flatMap itemBytes

/-- `(Item*)(slab + j * SLAB_ITEM_SIZE)`. -/
def itemAt (mem : ℕ → Byte) (j : ℕ) : Item :=
  itemOfBytes ((List.range slabItemSize).map fun i => mem (slabItemSize * j + i))

/-- The items of the slab that `GetSlabArray` makes of a value, with `nalloc_` set to
`SLAB_SIZE / SLAB_ITEM_SIZE`; `behind` is the memory behind the value. -/
def readSlab (value : List Byte) (behind : ℕ → Byte) : List Item :=
  (List.range maxAllocItem).map (itemAt (memory value behind))

structure Item.Full (item : Item) : Prop where
  timestamp_lt : item.timestamp < 2 ^ 64
  length_chunk : item.chunk.length = chunkSize

variable {item : Item} {items : List Item}

theorem Item.Full.length_itemBytes (h : item.Full) : (itemBytes item).length = slabItemSize := by
  rw [itemBytes, length_append, Coding.length_encodeFixed, h.length_chunk]
  rfl

theorem Item.Full.itemOfBytes_itemBytes (h : item.Full) : itemOfBytes (itemBytes item) = item := by
  have hdrop : (itemBytes item).drop 8 = item.chunk :=
    drop_left' (Coding.length_encodeFixed 8 item.timestamp)
  have htime : Coding.decodeFixed 8 (itemBytes item) = item.timestamp := by
    rw [itemBytes, Coding.decodeFixed_encodeFixed]
    exact Nat.mod_eq_of_lt h.timestamp_lt
  rw [itemOfBytes, hdrop, htime]

theorem itemAt_slabValue (h : ∀ item ∈ items, item.Full) (behind : ℕ → Byte) {j : ℕ}
    (hj : j < items.length) : itemAt (memory (slabValue items) behind) j = items[j] := by
  have hfull := h items[j] (getElem_mem hj)
  have hbytes : ((List.range slabItemSize).map fun i =>
      memory (slabValue items) behind (slabItemSize * j + i)) = itemBytes items[j] := by
    refine ext_getElem (by simp [hfull.length_itemBytes]) fun i hi hi' => ?_
    rw [hfull.length_itemBytes] at hi'
    rw [getElem_map, getElem_range, memory, getD_eq_getElem?_getD,
      slabValue,
      RowMajor.getElem?_flatMap (fun item hitem => (h item hitem).length_itemBytes) j hi',
      getElem?_eq_getElem hj, Option.bind_some,
      getElem?_eq_getElem (by rw [hfull.length_itemBytes]; exact hi'), Option.getD_some]
  rw [itemAt, hbytes, hfull.itemOfBytes_itemBytes]

theorem readSlab_slabValue (h : ∀ item ∈ items, item.Full) (hlen : items.length = maxAllocItem)
    (behind : ℕ → Byte) : readSlab (slabValue items) behind = items := by
  refine ext_getElem (by simp [readSlab, hlen]) fun j hj hj' => ?_
  simp only [readSlab, getElem_map, getElem_range]
  exact itemAt_slabValue h behind hj'

theorem readSlab_of_followed {more : List Item} (h : ∀ item ∈ items ++ more, item.Full)
    (hlen : (items ++ more).length = maxAllocItem) :
    readSlab (slabValue items) (fun i => (slabValue (items ++ more)).getD i 0#8) =
      items ++ more := by
  have hmem : memory (slabValue items)
      (fun i => (slabValue (items ++ more)).getD i 0#8) =
      memory (slabValue (items ++ more)) fun _ => 0#8 := by
    funext i
    have hvalue : slabValue (items ++ more) = slabValue items ++ slabValue more :=
      flatMap_append
    simp only [memory, getD_eq_getElem?_getD, hvalue]
    by_cases hi : i < (slabValue items).length
    · rw [getElem?_append_left hi, getElem?_eq_getElem hi]
      rfl
    · rw [getElem?_eq_none (not_lt.1 hi)]
      rfl
  rw [readSlab, hmem]
  exact readSlab_slabValue h hlen _

theorem exists_item {sgid mid : ℕ} (hsgid : sgid < 2 ^ 64) (hmid : mid < 2 ^ 16)
    (junk : ℕ → Byte) (x : Sample) :
    ∃ item : Item, item.Full ∧ headerIs sgid mid item = true ∧
      decodeChunk junk (item.chunk.take chunkSize) = [x] := by
  have hinit := TreeMemSeries.holds_init 0 0 0#64
  obtain ⟨header, hheader, code, window, hs, hd, -⟩ := hinit.written x.1 x.2
  have hend := TreeMemSeries.endPos_written_nil hinit x.1 x.2
  obtain ⟨data, k, hbytes, hdata⟩ := bytes_of_carries hs
  have hlen : ((TreeMemSeries.init 0 0 0#64).written x.1 x.2).bytes.length ≤ 20 := by
    rw [BitStream.bytes, length_drop, ← hs.holds.endPos_eq, hs.headerSize_eq, hheader,
      valueHeaderSize]
    omega
  generalize ((TreeMemSeries.init 0 0 0#64).written x.1 x.2).bytes = bytes at hbytes hlen
  have hzeros : ofBytes (data ++ List.replicate (237 - bytes.length) 0#8) =
      code ++ List.replicate (k + 8 * (237 - bytes.length)) false := by
    rw [ofBytes_append, hdata, ofBytes_replicate_zero, append_assoc, ← replicate_add]
  have hpadded : bytes ++ List.replicate (237 - bytes.length) 0#8 =
      Endian.countBytes [x].length ++ (data ++ List.replicate (237 - bytes.length) 0#8) := by
    rw [hbytes, append_assoc]
    rfl
  have hheaderLen := TreeMemSeries.length_encodeValueHeader sgid mid
  have hchunk : (encodeValueHeader sgid mid ++
      (bytes ++ List.replicate (237 - bytes.length) 0#8)).length = chunkSize := by
    rw [length_append, hheaderLen, length_append, length_replicate,
      valueHeaderSize, chunkSize]
    omega
  obtain ⟨it, hdrain, -⟩ := drain_of_bytes hd (by simp) hpadded hzeros junk le_rfl
  refine ⟨⟨0, encodeValueHeader sgid mid ++
    (bytes ++ List.replicate (237 - bytes.length) 0#8)⟩, ⟨Nat.two_pow_pos 64, hchunk⟩,
    headerIs_of_header hsgid hmid (prefix_append _ _), ?_⟩
  rw [take_of_length_le hchunk.le, decodeChunk, drop_left' hheaderLen,
    readIterator, hdrain]
  rfl

namespace SlabArrayIterator

variable {junk : ℕ → Byte} {it : SlabArrayIterator}
  {item : Item} {rest items : List Item} {x : Sample} {sgid mid : ℕ}

theorem getItemIdx_of_start (hitems : ∀ i ∈ items, headerIs it.sgid it.mid i = true ∧
      startTime junk i < it.minTime) (hitem : headerIs it.sgid it.mid item = true)
    (hstart : startTime junk item = it.minTime) (prev : Option (List Item)) :
    it.getItemIdx junk (items ++ item :: rest) prev = some (item :: rest) := by
  induction items generalizing prev with
  | nil => rw [nil_append, getItemIdx, if_pos hitem, if_neg hstart.not_lt, if_pos hstart]
  | cons i items ih =>
    rw [forall_mem_cons] at hitems
    rw [cons_append, getItemIdx, if_pos hitems.1.1, if_pos hitems.1.2, ih hitems.2]

theorem decodeItemChunk_of_header (h : headerIs it.sgid it.mid item = true) :
    it.decodeItemChunk junk item = decodeChunk junk (item.chunk.take chunkSize) :=
  if_pos h

theorem scanSamples_of_single (hsamples : it.samples = [x]) (hsub : it.subIdx = 0)
    (hx : it.inRange x = true) :
    it.scanSamples (it.samples.drop it.subIdx) it.subIdx = some (true, 0) := by
  obtain ⟨hmin, hmax⟩ := of_decide_eq_true hx
  rw [hsamples, hsub, drop_zero, scanSamples, if_neg (not_lt.2 hmax), if_pos hmin]

theorem next_of_first {slab : List Item} (hinit : it.init = false) (hsub : it.subIdx = 0)
    (hslabs : it.slabs = [slab]) (hget : it.getItemIdx junk slab none = some (item :: rest))
    (hitem : it.decodeItemChunk junk item = [x]) (hx : it.inRange x = true) :
    it.next junk = some { it.take junk item rest [] with init := true, subIdx := 0 } := by
  have hscan := @scanSamples_of_single { it.take junk item rest [] with init := true } x
    hitem hsub hx
  rw [next, hinit, if_neg Bool.false_ne_true, hslabs, nextSlab, hget]
  dsimp only
  rw [firstLoop, hscan]

theorem nextLoop_of_item {fuel : ℕ} (hsub : it.subIdx = 0) (hitems : it.items = item :: rest)
    (hheader : headerIs it.sgid it.mid item = true)
    (hitem : it.decodeItemChunk junk item = [x]) (hx : it.inRange x = true) :
    nextLoop junk (fuel + 1) it =
      some { it.take junk item rest it.slabs with subIdx := 0 } := by
  have hnext : it.nextItem junk = some (item, rest, it.slabs) := by
    rw [nextItem, hitems, dropWhile_cons_of_neg (by simp [hheader])]
  have hscan := @scanSamples_of_single (it.take junk item rest it.slabs) x hitem hsub hx
  have hlen : ¬ (it.take junk item rest it.slabs).samples.length ≤
      (it.take junk item rest it.slabs).subIdx := by
    rw [show (it.take junk item rest it.slabs).samples = [x] from hitem,
      show (it.take junk item rest it.slabs).subIdx = 0 from hsub]
    exact Nat.not_succ_le_zero 0
  rw [nextLoop, hnext]
  dsimp only
  rw [if_neg hlen, hscan]

theorem next_of_last (hinit : it.init = true) (hlast : it.samples.length ≤ it.subIdx + 1)
    (hitems : it.items = item :: rest) (hheader : headerIs it.sgid it.mid item = true)
    (hitem : it.decodeItemChunk junk item = [x]) (hx : it.inRange x = true) :
    ∃ it', it.next junk = some it' ∧ it'.at' = x := by
  rw [next, if_pos hinit, getElem?_eq_none hlast]
  refine ⟨_, @nextLoop_of_item junk { it with subIdx := 0 } item rest x _ rfl hitems hheader hitem
    hx, ?_⟩
  rw [at', show ({ ({ it with subIdx := 0 } : SlabArrayIterator).take junk item rest it.slabs with
    subIdx := 0 } : SlabArrayIterator).samples = [x] from hitem]
  rfl

structure ValueItems (junk : ℕ → Byte) (sgid mid : ℕ) (items : List Item) : Prop where
  full : ∀ item ∈ items, item.Full
  header : ∀ item ∈ items, headerIs sgid mid item = true
  filled : ∀ item ∈ items, decodeChunk junk (item.chunk.take chunkSize) ≠ []
  ascending : Ascending (seriesSamples junk [items] sgid mid)

theorem seriesSamples_of_header (h : ∀ item ∈ items, headerIs sgid mid item = true) :
    seriesSamples junk [items] sgid mid =
      items.flatMap fun item => decodeChunk junk (item.chunk.take chunkSize) := by
  rw [seriesSamples, flatten_singleton, filter_eq_self.2 h]

theorem ValueItems.startTime_lt {init : List Item} {last : Item}
    (h : ValueItems junk sgid mid (init ++ [last])) {y : Sample} {ys : List Sample}
    (hlast : decodeChunk junk (last.chunk.take chunkSize) = y :: ys) (hitem : item ∈ init) :
    startTime junk item < y.1.toInt := by
  have hmem := mem_append_left [last] hitem
  obtain ⟨x, xs, hx⟩ := exists_cons_of_ne_nil (h.filled item hmem)
  have hstart : startTime junk item = x.1.toInt :=
    @startTime_eq junk (ofSlabs [] 0 0 sgid mid) item x xs
      ((decodeItemChunk_of_header (h.header item hmem)).trans hx)
  have hasc := h.ascending
  rw [seriesSamples_of_header h.header, flatMap_append, flatMap_singleton, hlast] at hasc
  rw [hstart]
  exact lt_of_ascending_append hasc
    (mem_flatMap.2 ⟨item, hitem, hx ▸ mem_cons_self⟩) mem_cons_self

theorem ValueItems.shows_behind (h : ValueItems junk sgid mid items) (hne : items ≠ []) {v : Word}
    (hitem : headerIs sgid mid item = true)
    (hdecode : decodeChunk junk (item.chunk.take chunkSize) = [(int64Max, v)]) {l : List Sample}
      (hyields : Iteration.Yields (next junk) at' (ofSlabs [items ++ item :: rest] int64Max.toInt
      int64Max.toInt sgid mid) l) : (int64Max, v) ∈ l := by
  have hrange : ∀ {it : SlabArrayIterator} {x : Sample}, it.minTime = int64Max.toInt →
      it.maxTime = int64Max.toInt → x.1.toInt = int64Max.toInt → it.inRange x = true := by
    intro it x hmin hmax hx
    rw [inRange, hmin, hmax, hx]
    exact decide_eq_true ⟨le_rfl, le_rfl⟩
  generalize hit : ofSlabs [items ++ item :: rest] int64Max.toInt int64Max.toInt sgid mid = it
    at hyields
  obtain ⟨hsgid, hmid, hmin, hmax, hslabs, hsub, hinit⟩ : it.sgid = sgid ∧ it.mid = mid ∧
      it.minTime = int64Max.toInt ∧ it.maxTime = int64Max.toInt ∧
      it.slabs = [items ++ item :: rest] ∧ it.subIdx = 0 ∧ it.init = false := by
    subst hit
    exact ⟨rfl, rfl, rfl, rfl, rfl, rfl, rfl⟩
  have hitem' : headerIs it.sgid it.mid item = true := by rw [hsgid, hmid, hitem]
  have hdecode' : it.decodeItemChunk junk item = [(int64Max, v)] :=
    (decodeItemChunk_of_header hitem').trans hdecode
  rcases eq_nil_or_concat items with rfl | ⟨init, last, rfl⟩
  · exact absurd rfl hne
  rw [concat_eq_append] at h hslabs
  have hheader : ∀ i ∈ init ++ [last], headerIs it.sgid it.mid i = true := by
    rw [hsgid, hmid]
    exact h.header
  have hlastMem : last ∈ init ++ [last] := mem_append_right _ mem_cons_self
  obtain ⟨y, ys, hy⟩ := exists_cons_of_ne_nil (h.filled last hlastMem)
  have hy' : it.decodeItemChunk junk last = y :: ys :=
    (decodeItemChunk_of_header (hheader last hlastMem)).trans hy
  have hbefore : ∀ i ∈ init, headerIs it.sgid it.mid i = true ∧
      startTime junk i < y.1.toInt := fun i hi =>
    ⟨hheader i (mem_append_left _ hi), h.startTime_lt hy hi⟩
  have hbound : ∀ x : Sample, x.1.toInt ≤ int64Max.toInt := by
    intro x
    have hlt := BitVec.toInt_lt (x := x.1)
    rw [show int64Max.toInt = 2 ^ 63 - 1 by decide]
    omega
  rcases (hbound y).lt_or_eq with hlt | heq
  · -- Every chunk of the value starts earlier, so the one behind it is taken.
    have hget : it.getItemIdx junk (init ++ [last] ++ item :: rest) none = some (item :: rest) := by
      refine getItemIdx_of_start (fun i hi => ?_) hitem' ((startTime_eq hdecode').trans hmin.symm) _
      rw [hmin]
      rcases mem_append.1 hi with hi | hi
      · exact ⟨(hbefore i hi).1, (hbefore i hi).2.trans hlt⟩
      · rw [mem_singleton.1 hi, startTime_eq hy']
        exact ⟨hheader last hlastMem, hlt⟩
    obtain ⟨l', rfl, -⟩ := hyields.exists_cons
      (next_of_first hinit hsub hslabs hget hdecode' (hrange hmin hmax rfl))
    rw [at', show (it.take junk item rest []).samples = [(int64Max, v)] from hdecode']
    exact mem_cons_self
  · -- The last chunk is at this time itself, and the call after it goes on behind the value.
    have hys : ys = [] := by
      have hasc := h.ascending
      rw [seriesSamples_of_header h.header, flatMap_append, flatMap_singleton, hy] at hasc
      refine eq_nil_iff_forall_not_mem.2 fun z hz => ?_
      have hyz := (pairwise_cons.1 (pairwise_append.1 hasc).2.1).1 z hz
      exact absurd (hbound z) (heq ▸ hyz).not_ge
    rw [hys] at hy'
    have hget : it.getItemIdx junk (init ++ [last] ++ item :: rest) none =
        some (last :: item :: rest) := by
      rw [append_assoc]
      refine getItemIdx_of_start (fun i hi => ?_) (hheader last hlastMem)
        ((startTime_eq hy').trans (heq.trans hmin.symm)) _
      rw [hmin, ← heq]
      exact hbefore i hi
    obtain ⟨l', rfl, hl'⟩ := hyields.exists_cons
      (next_of_first hinit hsub hslabs hget hy' (hrange hmin hmax heq))
    have hlen : (it.take junk last (item :: rest) []).samples.length ≤ 0 + 1 := by
      rw [show (it.take junk last (item :: rest) []).samples = [y] from hy']
      exact le_rfl
    obtain ⟨it₂, hnext, hat⟩ := @next_of_last junk
      { it.take junk last (item :: rest) [] with init := true, subIdx := 0 } item rest
      (int64Max, v) rfl hlen rfl hitem' hdecode' (hrange hmin hmax rfl)
    obtain ⟨l'', rfl, -⟩ := hl'.exists_cons hnext
    rw [hat]
    exact mem_cons_of_mem _ mem_cons_self

end SlabArrayIterator

open SlabArrayIterator

theorem SlabArrayIterator.Ascending.eq_of_time {l : List Sample} (h : Ascending l) {x y : Sample}
    (hx : x ∈ l) (hy : y ∈ l) (heq : x.1 = y.1) : x = y := by
  have hnodup : (l.map fun z => z.1.toInt).Nodup :=
    (pairwise_map.2 h).imp fun hlt => hlt.ne
  exact inj_on_of_nodup_map hnodup hx hy (congrArg BitVec.toInt heq)

theorem lt_of_headerIs {sgid mid : ℕ} (h : headerIs sgid mid item = true) :
    sgid < 2 ^ 64 ∧ mid < 2 ^ 16 := by
  rw [headerIs, Bool.and_eq_true, beq_iff_eq, beq_iff_eq, Option.map_eq_some_iff,
    Option.map_eq_some_iff] at h
  obtain ⟨⟨s, -, rfl⟩, m, -, rfl⟩ := h
  exact ⟨s.isLt, m.isLt⟩

/-- `slab_iter_` of an iterator over a level, with the memory behind the values of the entries
that `GetSlabArray` collected. -/
def levelIterator (collected : List Entry) (behind : Entry → ℕ → Byte) (minTime maxTime : ℤ)
    (sgid mid : ℕ) : SlabArrayIterator :=
  ofSlabs (collected.map fun e => readSlab e.value (behind e)) minTime maxTime sgid mid

/-- Whatever lies behind the value of an entry, the iterator is given the items of the value and
shows their samples of any range: this holds if and only if the value is that of a full slab. -/
theorem levelValue_read_iff (junk : ℕ → Byte) {sgid mid : ℕ} {items : List Item}
    (h : ValueItems junk sgid mid items) (hne : items ≠ []) (hlen : items.length ≤ maxAllocItem)
    (ikey : InternalKey) :
    ((∀ behind, readSlab (slabValue items) behind = items) ↔ items.length = maxAllocItem) ∧
      ((∀ behind minTime maxTime, 0 ≤ minTime → Iteration.Yields (next junk) at'
        (levelIterator [⟨ikey, slabValue items⟩] behind minTime maxTime sgid mid)
        ((seriesSamples junk [items] sgid mid).filter fun x =>
          decide (minTime ≤ x.1.toInt ∧ x.1.toInt ≤ maxTime))) ↔
        items.length = maxAllocItem) := by
  refine ⟨⟨fun hread => ?_, fun hfull => readSlab_slabValue h.full hfull⟩,
    fun hread => ?_, fun hfull behind minTime maxTime hmin => ?_⟩
  · rw [← hread fun _ => 0#8, readSlab, length_map, length_range]
  · by_contra hshort
    obtain ⟨first, hfirst⟩ := exists_mem_of_ne_nil items hne
    obtain ⟨hsgid, hmid⟩ := lt_of_headerIs (h.header first hfirst)
    -- A sample at the last time that the value does not hold.
    obtain ⟨v, hv⟩ : ∃ v, (int64Max, v) ∉ seriesSamples junk [items] sgid mid := by
      by_cases hzero : (int64Max, 0#64) ∈ seriesSamples junk [items] sgid mid
      · refine ⟨1#64, fun hone => ?_⟩
        exact absurd (h.ascending.eq_of_time hzero hone rfl) (by decide)
      · exact ⟨0#64, hzero⟩
    obtain ⟨item, hfull, hitem, hdecode⟩ := exists_item hsgid hmid junk (int64Max, v)
    obtain ⟨n, hn⟩ : ∃ n, items.length + (n + 1) = maxAllocItem :=
      ⟨maxAllocItem - items.length - 1, by omega⟩
    have hslab : readSlab (slabValue items)
        (fun i => (slabValue (items ++ List.replicate (n + 1) item)).getD i 0#8) =
        items ++ List.replicate (n + 1) item := by
      refine readSlab_of_followed (fun i hi => ?_) ?_
      · rcases mem_append.1 hi with hi | hi
        · exact h.full i hi
        · rw [eq_of_mem_replicate hi]
          exact hfull
      · rw [length_append, length_replicate, hn]
    have hyields := hread
      (fun _ i => (slabValue (items ++ List.replicate (n + 1) item)).getD i 0#8)
      int64Max.toInt int64Max.toInt (by decide)
    rw [levelIterator, map_singleton, hslab, replicate_succ] at hyields
    exact hv (mem_filter.1 (h.shows_behind hne hitem hdecode hyields)).1
  · rw [levelIterator, map_singleton, readSlab_slabValue h.full hfull]
    have hfilled : ∀ item ∈ [items].flatten, headerIs sgid mid item = true →
        decodeChunk junk (item.chunk.take chunkSize) ≠ [] := by
      intro item hitem _
      rw [flatten_singleton] at hitem
      exact h.filled item hitem
    rw [← @inRange_ofSlabs [items] sgid mid minTime maxTime hmin,
      ← @content_ofSlabs junk [items] sgid mid minTime maxTime]
    refine yields_content (filled_ofSlabs hfilled) ?_
    rw [content_ofSlabs]
    exact h.ascending

theorem valueItems_mixedSlab : ValueItems (fun _ => 0#8) 1 1 (mixedSlab.take 1) := by
  have hfull : ∀ item ∈ mixedSlab.take 1, item.timestamp < 2 ^ 64 ∧
      item.chunk.length = chunkSize := by decide +kernel
  exact ⟨fun item hitem => ⟨(hfull item hitem).1, (hfull item hitem).2⟩, by decide +kernel,
    by decide +kernel, by unfold Ascending; decide +kernel⟩

/-- A value of one item is not read to its length. -/
theorem levelValue_read_single :
    ¬ ∀ behind, readSlab (slabValue (mixedSlab.take 1)) behind = mixedSlab.take 1 := fun h =>
  absurd ((levelValue_read_iff (fun _ => 0#8) valueItems_mixedSlab (by decide) (by decide)
    ⟨⟨1#64, 1#16, 5#64⟩, 1⟩).1.1 h) (by decide)

/-- The value holds the sample at 5 only. With the chunks of another value behind it, the sample
at 7 of one of these is shown as well. -/
theorem levelValue_overread :
    seriesSamples (fun _ => 0#8) [mixedSlab.take 1] 1 1 = [(5#64, 0#64)] ∧
      Iteration.Yields (next fun _ => 0#8) at'
        (levelIterator [⟨⟨⟨1#64, 1#16, 5#64⟩, 1⟩, slabValue (mixedSlab.take 1)⟩]
          (fun _ i => (slabValue (mixedSlab.take 1 ++ (mixedSlab.drop 1 ++
            List.replicate 13 (mixedSlab.getD 1 ⟨0, []⟩)))).getD i 0#8) 0 100 1 1)
        [(5#64, 0#64), (7#64, 0#64)] := by
  refine ⟨by decide +kernel, ?_⟩
  have hfull : ∀ item ∈ mixedSlab.take 1 ++ (mixedSlab.drop 1 ++
      List.replicate 13 (mixedSlab.getD 1 ⟨0, []⟩)), item.timestamp < 2 ^ 64 ∧
        item.chunk.length = chunkSize := by
    decide +kernel
  have hslab := readSlab_of_followed (fun item hitem => ⟨(hfull item hitem).1,
    (hfull item hitem).2⟩) (by decide)
  have hsamples : seriesSamples (fun _ => 0#8) [mixedSlab.take 1 ++ (mixedSlab.drop 1 ++
      List.replicate 13 (mixedSlab.getD 1 ⟨0, []⟩))] 1 1 = [(5#64, 0#64), (7#64, 0#64)] := by
    decide +kernel
  have hfilled : ∀ item ∈ [mixedSlab.take 1 ++ (mixedSlab.drop 1 ++
      List.replicate 13 (mixedSlab.getD 1 ⟨0, []⟩))].flatten,
      headerIs 1 1 item = true →
        decodeChunk (fun _ => 0#8) (item.chunk.take chunkSize) ≠ [] := by
    decide +kernel
  rw [levelIterator, map_singleton, hslab]
  generalize [mixedSlab.take 1 ++ (mixedSlab.drop 1 ++
    List.replicate 13 (mixedSlab.getD 1 ⟨0, []⟩))] = slabs at hsamples hfilled ⊢
  have h := @yields_content (fun _ => 0#8) slabs 1 1 0 100 (filled_ofSlabs hfilled)
    (by rw [content_ofSlabs, hsamples]; unfold Ascending; decide)
  rw [content_ofSlabs, hsamples] at h
  exact h

end PromTCS
