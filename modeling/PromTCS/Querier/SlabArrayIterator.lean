import PromTCS.Head.FlushDb
import PromTCS.Head.TreeMemSeries
import PromTCS.Lib.Iteration

/-!
# SlabArrayIterator

The iterator goes through an array of slabs, passes over the items of other series, and decodes
one chunk at a time. In every slab it begins with the last chunk of the series that starts before
the range, or with the one that starts with it. The first call looks for the first sample in the
range; every other call goes on to the next sample.

A slab stands for its `nalloc_` items. `slab_idx_` and `item_idx_` only grow, and are kept as the
slabs and items that are left. After a call that returned `false` the iterator is not asked again,
so `err_` is left out, and so is the cache, which the callers do not set.
-/

namespace PromTCS

open List FlushHead

def decodeChunk (junk : ℕ → Byte) (value : List Byte) : List Sample :=
  ((XORChunk.readIterator (value.drop valueHeaderSize) junk).drain.map Prod.fst).getD []

structure SlabArrayIterator where
  sgid : ℕ
  mid : ℕ
  minTime : ℤ
  maxTime : ℤ
  slabs : List (List Item)
  items : List Item
  samples : List Sample
  subIdx : ℕ
  init : Bool

namespace SlabArrayIterator

/-- The constructor; `slabs` are all slabs of the array. -/
def ofSlabs (slabs : List (List Item)) (minTime maxTime : ℤ) (sgid mid : ℕ) :
    SlabArrayIterator where
  sgid := sgid
  mid := mid
  minTime := if minTime < 0 then 0 else minTime
  maxTime := maxTime
  slabs := slabs
  items := []
  samples := []
  subIdx := 0
  init := false

section

variable (junk : ℕ → Byte)

variable (it : SlabArrayIterator)

/-- `DecodeItemChunk`: nothing is decoded if the header is that of another series. -/
def decodeItemChunk (item : Item) : List Sample :=
  if headerIs it.sgid it.mid item then decodeChunk junk (item.chunk.take chunkSize)
  else []

/-- The start time that `DecodeItemChunkHeader` returns. -/
def startTime (item : Item) : ℤ :=
  let value := (item.chunk.take chunkSize).drop valueHeaderSize
  match (XORChunk.readIterator value junk).next with
  | (true, it) => it.timestamp.toInt
  | (false, _) => int64Max.toInt

/-- `GetItemIdx`, with the items from `prev_item_idx` on, if there is one. -/
def getItemIdx (it : SlabArrayIterator) : List Item → Option (List Item) → Option (List Item)
  | [], prev => prev
  | item :: items, prev =>
    if headerIs it.sgid it.mid item then
      if startTime junk item < it.minTime then it.getItemIdx items (some (item :: items))
      else if startTime junk item = it.minTime then some (item :: items)
      else some (prev.getD (item :: items))
    else it.getItemIdx items prev

def nextSlab (it : SlabArrayIterator) :
    List (List Item) → Option (Item × List Item × List (List Item))
  | [] => none
  | slab :: slabs =>
    match it.getItemIdx junk slab none with
    | some (item :: items) => some (item, items, slabs)
    | _ => it.nextSlab slabs

def nextItem : Option (Item × List Item × List (List Item)) :=
  match it.items.dropWhile fun item => !headerIs it.sgid it.mid item with
  | item :: items => some (item, items, it.slabs)
  | [] => it.nextSlab junk it.slabs

/-- `while (sub_idx_ < t_->size())` from a position on: whether the sample it stops at is in the
range, and its position. -/
def scanSamples (it : SlabArrayIterator) : List Sample → ℕ → Option (Bool × ℕ)
  | [], _ => none
  | sample :: samples, sub =>
    if it.maxTime < sample.1.toInt then some (false, sub)
    else if it.minTime ≤ sample.1.toInt then some (true, sub)
    else it.scanSamples samples (sub + 1)

def itemsLeft : ℕ := it.items.length + it.slabs.flatten.length

/-- `DecodeItemChunk(item)`, with the position behind the item. -/
def take (item : Item) (items : List Item) (slabs : List (List Item)) :
    SlabArrayIterator :=
  { it with
    items := items
    slabs := slabs
    samples := it.decodeItemChunk junk item }

def firstLoop : ℕ → SlabArrayIterator → Option SlabArrayIterator
  | 0, _ => none
  | fuel + 1, it =>
    match it.scanSamples (it.samples.drop it.subIdx) it.subIdx with
    | some (true, sub) => some { it with subIdx := sub }
    | some (false, _) => none
    | none =>
      match it.nextItem junk with
      | none => none
      | some (item, items, slabs) =>
        firstLoop fuel { it.take junk item items slabs with subIdx := 0 }

/-- The loop of the later calls. After a chunk that is before the range `item_idx_` is increased
once more, and `sub_idx_` is not reset. -/
def nextLoop : ℕ → SlabArrayIterator → Option SlabArrayIterator
  | 0, _ => none
  | fuel + 1, it =>
    match it.nextItem junk with
    | none => none
    | some (item, items, slabs) =>
      let it := it.take junk item items slabs
      if it.samples.length ≤ it.subIdx then nextLoop fuel it
      else
        match it.scanSamples (it.samples.drop it.subIdx) it.subIdx with
        | some (true, sub) => some { it with subIdx := sub }
        | some (false, _) => none
        | none => nextLoop fuel
            { it with items := it.items.tail, subIdx := it.samples.length }

def next : Option SlabArrayIterator :=
  if it.init then
    match it.samples[it.subIdx + 1]? with
    | some sample =>
      if it.maxTime < sample.1.toInt then none else some { it with subIdx := it.subIdx + 1 }
    | none => nextLoop junk (it.itemsLeft + 1) { it with subIdx := 0 }
  else
    match it.nextSlab junk it.slabs with
    | none => none
    | some (item, items, slabs) =>
      firstLoop junk (it.itemsLeft + 1) { it.take junk item items slabs with init := true }

def at' : Sample := it.samples.getD it.subIdx (0#64, 0#64)

end

/-! ## What the iterator shows -/

variable {junk : ℕ → Byte} {it : SlabArrayIterator}

def content (junk : ℕ → Byte) (it : SlabArrayIterator) (items : List Item) : List Sample :=
  items.flatMap (it.decodeItemChunk junk)

def Filled (junk : ℕ → Byte) (it : SlabArrayIterator) (items : List Item) : Prop :=
  ∀ item ∈ items, headerIs it.sgid it.mid item → it.decodeItemChunk junk item ≠ []

def Ascending (l : List Sample) : Prop := l.Pairwise fun x y => x.1.toInt < y.1.toInt

def inRange (it : SlabArrayIterator) (x : Sample) : Bool :=
  decide (it.minTime ≤ x.1.toInt ∧ x.1.toInt ≤ it.maxTime)

def Before (it : SlabArrayIterator) (l : List Sample) : Prop :=
  ∀ x ∈ l, x.1.toInt < it.minTime

@[simp] theorem content_append (l l' : List Item) :
    content junk it (l ++ l') = content junk it l ++ content junk it l' :=
  flatMap_append

variable {item : Item} {x : Sample} {l tail : List Sample} {items : List Item}

theorem decodeItemChunk_of_not (h : ¬ headerIs it.sgid it.mid item = true) :
    it.decodeItemChunk junk item = [] :=
  if_neg h

theorem startTime_eq (h : it.decodeItemChunk junk item = x :: l) :
    startTime junk item = x.1.toInt := by
  unfold decodeItemChunk at h
  split_ifs at h
  unfold decodeChunk XORIterator.drain at h
  unfold startTime
  dsimp only
  generalize XORChunk.readIterator _ junk = xor at h ⊢
  rw [XORIterator.collect] at h
  split at h
  · cases h
  · rename_i xor' hnext
    rw [hnext]
    cases hrest : XORIterator.collect (xor.numTotal - xor.numRead) xor' with
    | none => simp [hrest] at h
    | some p =>
      simp only [hrest, Option.map_some, Option.getD_some, List.cons.injEq] at h
      rw [← h.1]
      rfl

theorem lt_of_ascending_append {l' : List Sample} (h : Ascending (l ++ l')) {y : Sample}
    (hx : x ∈ l) (hy : y ∈ l') : x.1.toInt < y.1.toInt :=
  (pairwise_append.1 h).2.2 x hx y hy

structure Takes (junk : ℕ → Byte) (it : SlabArrayIterator) (items : List Item) (item : Item)
    (rest : List Item) : Prop where
  header : headerIs it.sgid it.mid item = true
  suffix : item :: rest <:+ items
  skips : ∃ skipped, content junk it items = skipped ++ content junk it (item :: rest) ∧
    it.Before skipped

theorem Takes.append_left {rest : List Item} (h : Takes junk it items item rest) {l : List Item}
    (hl : content junk it l = []) : Takes junk it (l ++ items) item rest where
  header := h.header
  suffix := h.suffix.trans (suffix_append l items)
  skips := by
    rw [content_append, hl, nil_append]
    exact h.skips

theorem Takes.append_right {rest : List Item} (h : Takes junk it items item rest) (l : List Item) :
    Takes junk it (items ++ l) item (rest ++ l) where
  header := h.header
  suffix := by
    obtain ⟨pre, hpre⟩ := h.suffix
    exact ⟨pre, by rw [← hpre, append_assoc, cons_append]⟩
  skips := by
    obtain ⟨skipped, heq, hbefore⟩ := h.skips
    refine ⟨skipped, ?_, hbefore⟩
    rw [content_append, heq, append_assoc, ← content_append, cons_append]

theorem takes_self (h : headerIs it.sgid it.mid item = true) (rest : List Item) :
    Takes junk it (item :: rest) item rest where
  header := h
  suffix := suffix_rfl
  skips := ⟨[], rfl, fun _ hx => absurd hx not_mem_nil⟩

theorem content_cons_of_not (junk : ℕ → Byte) (h : ¬ headerIs it.sgid it.mid item = true)
    (items : List Item) : content junk it (item :: items) = content junk it items := by
  rw [content, flatMap_cons, decodeItemChunk_of_not h]
  rfl

theorem getItemIdx_some (hfilled : Filled junk it items) {tail : List Item}
    (hitem : headerIs it.sgid it.mid item = true) (hsuffix : items <:+ tail)
    (hcontent : content junk it tail = content junk it items)
    (hasc : Ascending (content junk it (item :: tail))) :
    ∃ item' rest, it.getItemIdx junk items (some (item :: tail)) = some (item' :: rest) ∧
      Takes junk it (item :: tail) item' rest := by
  induction items generalizing item tail with
  | nil => exact ⟨item, tail, rfl, takes_self hitem tail⟩
  | cons next items ih =>
    have hfilled' : Filled junk it items := fun i hi => hfilled i (mem_cons_of_mem _ hi)
    have hsuffix' : items <:+ tail := (suffix_cons next items).trans hsuffix
    rw [getItemIdx]
    by_cases hnext : headerIs it.sgid it.mid next = true
    · obtain ⟨x, l, hx⟩ := exists_cons_of_ne_nil (hfilled next mem_cons_self hnext)
      have hsplit : content junk it (item :: tail) =
          it.decodeItemChunk junk item ++ content junk it (next :: items) := by
        rw [content, flatMap_cons, ← hcontent]
        rfl
      have hhead : x ∈ content junk it (next :: items) :=
        mem_append_left _ (hx ▸ mem_cons_self)
      have hbefore : startTime junk next ≤ it.minTime →
          it.Before (it.decodeItemChunk junk item) := by
        intro hle y hy
        rw [startTime_eq hx] at hle
        exact (lt_of_ascending_append (hsplit ▸ hasc) hy hhead).trans_le hle
      rw [if_pos hnext]
      split_ifs with hlt heq
      · obtain ⟨item', rest, hget, htakes⟩ := ih hfilled' hnext suffix_rfl rfl
          (hasc.sublist (hsplit ▸ sublist_append_right _ _))
        obtain ⟨skipped, hskip, hskipped⟩ := htakes.skips
        refine ⟨item', rest, hget, htakes.header,
          htakes.suffix.trans (hsuffix.trans (suffix_cons item tail)),
          it.decodeItemChunk junk item ++ skipped, ?_, fun y hy => ?_⟩
        · rw [hsplit, hskip, append_assoc]
        · rcases mem_append.1 hy with hy | hy
          · exact hbefore hlt.le y hy
          · exact hskipped y hy
      · exact ⟨next, items, rfl, hnext, hsuffix.trans (suffix_cons item tail), _, hsplit,
          hbefore heq.le⟩
      · exact ⟨item, tail, rfl, takes_self hitem tail⟩
    · rw [if_neg hnext]
      refine ih hfilled' hitem hsuffix' ?_ hasc
      rw [hcontent, content_cons_of_not junk hnext]

theorem getItemIdx_none (hfilled : Filled junk it items) (hasc : Ascending (content junk it items)) :
    (it.getItemIdx junk items none = none ∧ content junk it items = []) ∨
      ∃ item rest, it.getItemIdx junk items none = some (item :: rest) ∧
        Takes junk it items item rest := by
  induction items with
  | nil => exact Or.inl ⟨rfl, rfl⟩
  | cons item items ih =>
    have hfilled' : Filled junk it items := fun i hi => hfilled i (mem_cons_of_mem _ hi)
    rw [getItemIdx]
    by_cases hitem : headerIs it.sgid it.mid item = true
    · rw [if_pos hitem]
      refine Or.inr ?_
      split_ifs
      · exact getItemIdx_some hfilled' hitem suffix_rfl rfl hasc
      · exact ⟨item, items, rfl, takes_self hitem items⟩
      · exact ⟨item, items, rfl, takes_self hitem items⟩
    · rw [if_neg hitem]
      have hcontent := content_cons_of_not junk hitem items
      rcases ih hfilled' (hcontent ▸ hasc) with ⟨hget, hnil⟩ | ⟨item', rest, hget, htakes⟩
      · exact Or.inl ⟨hget, hcontent.trans hnil⟩
      · exact Or.inr ⟨item', rest, hget,
          htakes.append_left (l := [item]) (content_cons_of_not junk hitem [])⟩

theorem nextSlab_spec {slabs : List (List Item)} (hfilled : Filled junk it slabs.flatten)
    (hasc : Ascending (content junk it slabs.flatten)) :
    (it.nextSlab junk slabs = none ∧ content junk it slabs.flatten = []) ∨
      ∃ item items slabs', it.nextSlab junk slabs = some (item, items, slabs') ∧
        Takes junk it slabs.flatten item (items ++ slabs'.flatten) := by
  induction slabs with
  | nil => exact Or.inl ⟨rfl, rfl⟩
  | cons slab slabs ih =>
    rw [flatten_cons] at hfilled hasc ⊢
    rw [content_append] at hasc
    have hfirst : Filled junk it slab := fun i hi => hfilled i (mem_append_left _ hi)
    have hslab := getItemIdx_none hfirst (pairwise_append.1 hasc).1
    rw [nextSlab]
    rcases hslab with ⟨hget, hnil⟩ | ⟨item, rest, hget, htakes⟩
    · rw [hget]
      dsimp only
      rcases ih (fun i hi => hfilled i (mem_append_right _ hi))
          (pairwise_append.1 hasc).2.1 with ⟨hnext, hrest⟩ | ⟨item, items, slabs', hnext, h⟩
      · exact Or.inl ⟨hnext, by rw [content_append, hnil, hrest]; rfl⟩
      · exact Or.inr ⟨item, items, slabs', hnext, h.append_left hnil⟩
    · rw [hget]
      exact Or.inr ⟨item, rest, slabs, rfl, htakes.append_right _⟩

def left (it : SlabArrayIterator) : List Item := it.items ++ it.slabs.flatten

theorem nextItem_spec (hfilled : Filled junk it it.left)
    (hasc : Ascending (content junk it it.left)) :
    (it.nextItem junk = none ∧ content junk it it.left = []) ∨
      ∃ item items slabs, it.nextItem junk = some (item, items, slabs) ∧
        Takes junk it it.left item (items ++ slabs.flatten) := by
  unfold left at hfilled hasc ⊢
  unfold nextItem
  generalize it.items = items at hfilled hasc ⊢
  induction items with
  | nil => exact nextSlab_spec hfilled hasc
  | cons item items ih =>
    by_cases hitem : headerIs it.sgid it.mid item = true
    · rw [dropWhile_cons_of_neg (by simp [hitem])]
      exact Or.inr ⟨item, items, it.slabs, rfl, takes_self hitem _⟩
    · rw [dropWhile_cons_of_pos (by simpa using hitem), cons_append]
      have hcontent := content_cons_of_not junk hitem (items ++ it.slabs.flatten)
      rw [hcontent]
      rcases ih (fun i hi => hfilled i (mem_cons_of_mem _ hi)) (hcontent ▸ hasc) with
        hnone | ⟨item', items', slabs, hnext, htakes⟩
      · exact Or.inl hnone
      · exact Or.inr ⟨item', items', slabs, hnext,
          htakes.append_left (l := [item]) (content_cons_of_not junk hitem [])⟩

theorem filter_inRange_of_before (h : it.Before l) : l.filter it.inRange = [] := by
  refine filter_eq_nil_iff.2 fun x hx hin => ?_
  have hlt := h x hx
  have hle := (of_decide_eq_true hin).1
  omega

theorem filter_inRange_of_after (h : Ascending (x :: l)) (hx : it.maxTime < x.1.toInt) :
    (x :: l).filter it.inRange = [] := by
  refine filter_eq_nil_iff.2 fun y hy hin => ?_
  have hle := (of_decide_eq_true hin).2
  rcases mem_cons.1 hy with rfl | hy
  · omega
  · have hlt := (pairwise_cons.1 h).1 y hy
    omega

theorem scanSamples_spec (it : SlabArrayIterator) (l : List Sample) (sub : ℕ) :
    (it.scanSamples l sub = none ∧ it.Before l) ∨
      ∃ pre x post, l = pre ++ x :: post ∧ it.Before pre ∧
        ((it.scanSamples l sub = some (true, sub + pre.length) ∧ it.inRange x = true) ∨
          ((it.scanSamples l sub = some (false, sub + pre.length)) ∧ it.maxTime < x.1.toInt)) := by
  induction l generalizing sub with
  | nil => exact Or.inl ⟨rfl, fun _ hx => absurd hx not_mem_nil⟩
  | cons x l ih =>
    rw [scanSamples]
    split_ifs with hmax hmin
    · exact Or.inr ⟨[], x, l, rfl, fun _ hx => absurd hx not_mem_nil, Or.inr ⟨rfl, hmax⟩⟩
    · exact Or.inr ⟨[], x, l, rfl, fun _ hx => absurd hx not_mem_nil,
        Or.inl ⟨rfl, decide_eq_true ⟨hmin, not_lt.1 hmax⟩⟩⟩
    · have hcons : ∀ {pre : List Sample}, it.Before pre → it.Before (x :: pre) := by
        intro pre hpre y hy
        rcases mem_cons.1 hy with rfl | hy
        · exact not_le.1 hmin
        · exact hpre y hy
      rcases ih (sub + 1) with ⟨hscan, hbefore⟩ | ⟨pre, y, post, rfl, hpre, hscan⟩
      · exact Or.inl ⟨hscan, hcons hbefore⟩
      · refine Or.inr ⟨x :: pre, y, post, rfl, hcons hpre, ?_⟩
        rw [length_cons, show sub + (pre.length + 1) = sub + 1 + pre.length by omega]
        exact hscan

def rest (junk : ℕ → Byte) (it : SlabArrayIterator) : List Sample :=
  it.samples.drop it.subIdx ++ content junk it it.left

/-- The iterator shows `x`, and `tail` comes after it. -/
structure Shows (junk : ℕ → Byte) (it : SlabArrayIterator) (x : Sample) (tail : List Sample) :
    Prop where
  init : it.init = true
  lt : it.subIdx < it.samples.length
  rest_eq : it.rest junk = x :: tail
  filled : Filled junk it it.left
  ascending : Ascending (x :: tail)
  le : it.minTime ≤ x.1.toInt

theorem Shows.drop_eq (h : it.Shows junk x tail) :
    it.samples.drop it.subIdx = x :: it.samples.drop (it.subIdx + 1) ∧
      tail = it.samples.drop (it.subIdx + 1) ++ content junk it it.left := by
  have heq := h.rest_eq
  rw [rest, drop_eq_getElem_cons h.lt, cons_append, List.cons.injEq] at heq
  rw [drop_eq_getElem_cons h.lt, heq.1]
  exact ⟨rfl, heq.2.symm⟩

theorem Shows.at_eq (h : it.Shows junk x tail) : it.at' = x := by
  have hdrop := h.drop_eq.1
  rw [drop_eq_getElem_cons h.lt, List.cons.injEq] at hdrop
  rw [at', getD_eq_getElem _ _ h.lt, hdrop.1]

/-- A call goes to the first sample of `l` in the range, if there is one. -/
def Finds (junk : ℕ → Byte) (it : SlabArrayIterator) (l : List Sample) :
    Option SlabArrayIterator → Prop
  | none => l.filter it.inRange = []
  | some it' => ∃ x tail, it'.Shows junk x tail ∧ it'.inRange = it.inRange ∧
      l.filter it.inRange = x :: tail.filter it.inRange ∧ tail.length < l.length

theorem Finds.append {pre : List Sample} {r : Option SlabArrayIterator} (h : Finds junk it l r)
    (hpre : it.Before pre) : Finds junk it (pre ++ l) r := by
  cases r with
  | none =>
    change (pre ++ l).filter it.inRange = []
    rw [filter_append, filter_inRange_of_before hpre]
    exact h
  | some it' =>
    obtain ⟨x, tail, hshows, hrange, hfilter, hlen⟩ := h
    refine ⟨x, tail, hshows, hrange, ?_, ?_⟩
    · rw [filter_append, filter_inRange_of_before hpre, nil_append, hfilter]
    · rw [length_append]
      omega

theorem finds_of_scan (hinit : it.init = true) (hfilled : Filled junk it it.left)
    (hasc : Ascending (it.rest junk)) {pre post : List Sample}
    (heq : it.samples.drop it.subIdx = pre ++ x :: post) (hpre : it.Before pre) :
    (it.inRange x = true →
      Finds junk it (it.rest junk) (some { it with subIdx := it.subIdx + pre.length })) ∧
      (it.maxTime < x.1.toInt → Finds junk it (it.rest junk) none) := by
  have hrest : it.rest junk = pre ++ (x :: (post ++ content junk it it.left)) := by
    rw [rest, heq, append_assoc, cons_append]
  have hasc' : Ascending (x :: (post ++ content junk it it.left)) :=
    hasc.sublist (hrest ▸ sublist_append_right _ _)
  rw [hrest]
  constructor
  · intro hx
    have hdrop : it.samples.drop (it.subIdx + pre.length) = x :: post := by
      rw [← drop_drop, heq, drop_left]
    refine Finds.append ?_ hpre
    refine ⟨x, post ++ content junk it it.left, ⟨hinit, ?_, ?_, hfilled, hasc',
      (of_decide_eq_true hx).1⟩, rfl, ?_, Nat.lt_succ_self _⟩
    · by_contra hge
      rw [drop_eq_nil_of_le (not_lt.1 hge)] at hdrop
      cases hdrop
    · change it.samples.drop (it.subIdx + pre.length) ++ content junk it it.left = _
      rw [hdrop, cons_append]
    · exact filter_cons_of_pos hx
  · intro hx
    exact Finds.append (r := none) (filter_inRange_of_after hasc' hx) hpre

theorem firstLoop_finds {fuel : ℕ} (hinit : it.init = true) (hfuel : it.left.length < fuel)
    (hfilled : Filled junk it it.left) (hasc : Ascending (it.rest junk)) :
    Finds junk it (it.rest junk) (firstLoop junk fuel it) := by
  induction fuel generalizing it with
  | zero => omega
  | succ fuel ih =>
    rw [firstLoop]
    rcases scanSamples_spec it (it.samples.drop it.subIdx) it.subIdx with
      ⟨hscan, hbefore⟩ | ⟨pre, x, post, heq, hpre, ⟨hscan, hx⟩ | ⟨hscan, hx⟩⟩
    · rw [hscan]
      dsimp only
      refine Finds.append ?_ hbefore
      have hasc' : Ascending (content junk it it.left) := (pairwise_append.1 hasc).2.1
      rcases nextItem_spec hfilled hasc' with ⟨hnext, hnil⟩ | ⟨item, items, slabs, hnext, htakes⟩
      · rw [hnext, hnil]
        rfl
      · obtain ⟨skipped, heq, hskipped⟩ := htakes.skips
        have hlen := htakes.suffix.length_le
        rw [length_cons] at hlen
        rw [hnext, heq]
        dsimp only
        refine Finds.append (ih hinit ?_ ?_ ?_) hskipped
        · change (items ++ slabs.flatten).length < fuel
          omega
        · intro i hi
          exact hfilled i (htakes.suffix.subset (mem_cons_of_mem _ hi))
        · exact hasc'.sublist (heq ▸ sublist_append_right _ _)
    · rw [hscan]
      exact (finds_of_scan hinit hfilled hasc heq hpre).1 hx
    · rw [hscan]
      exact (finds_of_scan hinit hfilled hasc heq hpre).2 hx

theorem nextLoop_finds {fuel : ℕ} (hinit : it.init = true) (hsub : it.subIdx = 0)
    (hfilled : Filled junk it it.left) (hasc : Ascending (content junk it it.left))
    (hmin : ∀ x ∈ content junk it it.left, it.minTime ≤ x.1.toInt) :
    Finds junk it (content junk it it.left) (nextLoop junk (fuel + 1) it) := by
  rw [nextLoop]
  rcases nextItem_spec hfilled hasc with ⟨hnext, hnil⟩ | ⟨item, items, slabs, hnext, htakes⟩
  · rw [hnext, hnil]
    rfl
  · obtain ⟨skipped, heq, hskipped⟩ := htakes.skips
    have hitem := hfilled item (htakes.suffix.subset mem_cons_self) htakes.header
    obtain ⟨x, l, hx⟩ := exists_cons_of_ne_nil hitem
    have hle : it.minTime ≤ x.1.toInt := by
      refine hmin x (heq ▸ mem_append_right _ (mem_append_left _ ?_))
      rw [hx]
      exact mem_cons_self
    have hdrop : (it.take junk item items slabs).samples.drop
        (it.take junk item items slabs).subIdx = [] ++ x :: l := by
      rw [take, hsub]
      exact hx
    have hrest : (it.take junk item items slabs).rest junk =
        content junk it (item :: (items ++ slabs.flatten)) := by
      rw [rest, hdrop, nil_append, ← hx]
      rfl
    have hscan := @finds_of_scan junk (it.take junk item items slabs) x hinit
      (fun i hi => hfilled i (htakes.suffix.subset (mem_cons_of_mem _ hi)))
      (hrest ▸ hasc.sublist (heq ▸ sublist_append_right _ _)) [] l hdrop
      nofun
    have hlen : ¬ (it.take junk item items slabs).samples.length ≤
        (it.take junk item items slabs).subIdx := by
      intro hle
      rw [drop_eq_nil_of_le hle] at hdrop
      cases hdrop
    rw [hrest] at hscan
    rw [hnext, heq]
    refine Finds.append ?_ hskipped
    dsimp only
    rw [if_neg hlen, hdrop, nil_append, scanSamples]
    by_cases hmax : it.maxTime < x.1.toInt
    · rw [if_pos (show (it.take junk item items slabs).maxTime < _ from hmax)]
      exact hscan.2 hmax
    · rw [if_neg (show ¬ (it.take junk item items slabs).maxTime < _ from hmax),
        if_pos (show (it.take junk item items slabs).minTime ≤ _ from hle)]
      exact hscan.1 (decide_eq_true ⟨hle, not_lt.1 hmax⟩)

theorem Shows.next_finds (h : it.Shows junk x tail) : Finds junk it tail (it.next junk) := by
  obtain ⟨-, htail⟩ := h.drop_eq
  have hmin : ∀ y ∈ tail, it.minTime ≤ y.1.toInt := fun y hy =>
    h.le.trans ((pairwise_cons.1 h.ascending).1 y hy).le
  have hasc : Ascending tail := (pairwise_cons.1 h.ascending).2
  rw [SlabArrayIterator.next, if_pos h.init]
  cases hsub : it.samples[it.subIdx + 1]? with
  | none =>
    rw [drop_eq_nil_of_le (List.getElem?_eq_none_iff.1 hsub), nil_append] at htail
    rw [htail] at hmin hasc ⊢
    exact @nextLoop_finds junk { it with subIdx := 0 } _ h.init rfl h.filled hasc hmin
  | some y =>
    obtain ⟨hlt, hy⟩ := List.getElem?_eq_some_iff.1 hsub
    rw [drop_eq_getElem_cons hlt, hy, cons_append] at htail
    dsimp only
    split_ifs with hmax
    · rw [htail] at hasc ⊢
      exact filter_inRange_of_after hasc hmax
    · refine ⟨y, it.samples.drop (it.subIdx + 1 + 1) ++ content junk it it.left,
        ⟨h.init, hlt, ?_, h.filled, htail ▸ hasc, hmin y (htail ▸ mem_cons_self)⟩, rfl, ?_,
        ?_⟩
      · change it.samples.drop (it.subIdx + 1) ++ content junk it it.left = _
        rw [drop_eq_getElem_cons hlt, hy, cons_append]
      · rw [htail]
        exact filter_cons_of_pos (decide_eq_true
          ⟨hmin y (htail ▸ mem_cons_self), not_lt.1 hmax⟩)
      · rw [htail]
        exact Nat.lt_succ_self _

theorem Finds.yields (h : Finds junk it l (it.next junk)) :
    Iteration.Yields (next junk) at' it (l.filter it.inRange) := by
  generalize hn : l.length = n
  induction n using Nat.strong_induction_on generalizing it l with
  | _ n ih =>
    cases hnext : it.next junk with
    | none =>
      rw [hnext] at h
      rw [show l.filter it.inRange = [] from h]
      exact hnext
    | some it' =>
      rw [hnext] at h
      obtain ⟨x, tail, hshows, hrange, hfilter, hlen⟩ := h
      rw [hfilter, ← hrange]
      exact ⟨it', hnext, hshows.at_eq, ih _ (hn ▸ hlen) hshows.next_finds rfl⟩

theorem next_finds_of_fresh (hinit : it.init = false) (hitems : it.items = [])
    (hsub : it.subIdx = 0) (hfilled : Filled junk it it.slabs.flatten)
    (hasc : Ascending (content junk it it.slabs.flatten)) :
    Finds junk it (content junk it it.slabs.flatten) (it.next junk) := by
  rw [SlabArrayIterator.next, hinit, if_neg Bool.false_ne_true]
  rcases nextSlab_spec hfilled hasc with ⟨hnext, hnil⟩ | ⟨item, items, slabs, hnext, htakes⟩
  · rw [hnext, hnil]
    rfl
  · obtain ⟨skipped, heq, hskipped⟩ := htakes.skips
    have hlen := htakes.suffix.length_le
    rw [length_cons] at hlen
    have hrest : rest junk { it.take junk item items slabs with init := true } =
        content junk it (item :: (items ++ slabs.flatten)) := by
      rw [rest, take, hsub, drop_zero]
      rfl
    rw [hnext, heq]
    refine Finds.append ?_ hskipped
    rw [← hrest]
    refine firstLoop_finds rfl ?_ ?_ ?_
    · change (items ++ slabs.flatten).length < it.itemsLeft + 1
      rw [itemsLeft, hitems]
      omega
    · intro i hi
      exact hfilled i (htakes.suffix.subset (mem_cons_of_mem _ hi))
    · rw [hrest]
      exact hasc.sublist (heq ▸ sublist_append_right _ _)

def seriesSamples (junk : ℕ → Byte) (slabs : List (List Item)) (sgid mid : ℕ) : List Sample :=
  (slabs.flatten.filter (headerIs sgid mid)).flatMap fun item =>
    decodeChunk junk (item.chunk.take chunkSize)

theorem content_eq (items : List Item) : content junk it items =
    (items.filter (headerIs it.sgid it.mid)).flatMap fun item =>
      decodeChunk junk (item.chunk.take chunkSize) := by
  induction items with
  | nil => rfl
  | cons item items ih =>
    by_cases hitem : headerIs it.sgid it.mid item = true
    · rw [filter_cons_of_pos hitem, flatMap_cons, ← ih, content, flatMap_cons,
        decodeItemChunk, if_pos hitem]
      rfl
    · rw [filter_cons_of_neg hitem, content_cons_of_not junk hitem, ih]

section OfSlabs

variable {slabs : List (List Item)} {sgid mid : ℕ} {minTime maxTime : ℤ}

theorem content_ofSlabs : content junk (ofSlabs slabs minTime maxTime sgid mid) slabs.flatten =
    seriesSamples junk slabs sgid mid :=
  content_eq slabs.flatten

theorem inRange_ofSlabs (hmin : 0 ≤ minTime) : (ofSlabs slabs minTime maxTime sgid mid).inRange =
    fun x => decide (minTime ≤ x.1.toInt ∧ x.1.toInt ≤ maxTime) := by
  have hmin' : (ofSlabs slabs minTime maxTime sgid mid).minTime = minTime := if_neg (not_lt.2 hmin)
  funext x
  rw [inRange, hmin']
  rfl

theorem filled_ofSlabs
    (h : ∀ item ∈ slabs.flatten, headerIs sgid mid item = true →
      decodeChunk junk (item.chunk.take chunkSize) ≠ []) :
    Filled junk (ofSlabs slabs minTime maxTime sgid mid) slabs.flatten := by
  intro item hitem hheader
  rw [decodeItemChunk, if_pos hheader]
  exact h item hitem hheader

theorem yields_content
    (hfilled : Filled junk (ofSlabs slabs minTime maxTime sgid mid) slabs.flatten)
    (hasc : Ascending (content junk (ofSlabs slabs minTime maxTime sgid mid) slabs.flatten)) :
    Iteration.Yields (next junk) at' (ofSlabs slabs minTime maxTime sgid mid)
      ((content junk (ofSlabs slabs minTime maxTime sgid mid) slabs.flatten).filter
        (ofSlabs slabs minTime maxTime sgid mid).inRange) :=
  (next_finds_of_fresh rfl rfl rfl hfilled hasc).yields

end OfSlabs

/-- Repeated calls of `next` show the samples of the series in the range, in their order. -/
theorem slabArrayIterator_yields (junk : ℕ → Byte) (slabs : List (List Item)) (sgid mid : ℕ)
    (minTime maxTime : ℤ) (hmin : 0 ≤ minTime)
    (hfilled : ∀ item ∈ slabs.flatten, headerIs sgid mid item = true →
      decodeChunk junk (item.chunk.take chunkSize) ≠ [])
    (hasc : (seriesSamples junk slabs sgid mid).Pairwise fun x y => x.1.toInt < y.1.toInt) :
    Iteration.Yields (next junk) at' (ofSlabs slabs minTime maxTime sgid mid)
      ((seriesSamples junk slabs sgid mid).filter fun x =>
        decide (minTime ≤ x.1.toInt ∧ x.1.toInt ≤ maxTime)) := by
  rw [← @inRange_ofSlabs slabs sgid mid minTime maxTime hmin,
    ← @content_ofSlabs junk slabs sgid mid minTime maxTime]
  refine yields_content (filled_ofSlabs hfilled) ?_
  rw [content_ofSlabs]
  exact hasc

/-- A chunk of source 1 and metric 1 with the sample `(5, 0.0)` and one with `(7, 0.0)`, and a
chunk of source 2 between them. -/
def mixedSlab : List Item :=
  [⟨5, encodeValueHeader 1 1 ++ [0#8, 1#8, 10#8] ++ List.replicate 234 0#8⟩,
    ⟨6, encodeValueHeader 2 1 ++ [0#8, 1#8, 12#8] ++ List.replicate 234 0#8⟩,
    ⟨7, encodeValueHeader 1 1 ++ [0#8, 1#8, 14#8] ++ List.replicate 234 0#8⟩]

/-- The range begins behind the first chunk. -/
theorem slabArrayIterator_yields_mixedSlab :
    Iteration.Yields (next fun _ => 0#8) at' (ofSlabs [[], mixedSlab] 6 7 1 1)
      [(7#64, 0#64)] := by
  have hsamples : seriesSamples (fun _ => 0#8) [[], mixedSlab] 1 1 =
      [(5#64, 0#64), (7#64, 0#64)] := by
    decide +kernel
  have hfilled : ∀ item ∈ [[], mixedSlab].flatten, headerIs 1 1 item = true →
      decodeChunk (fun _ => 0#8) (item.chunk.take chunkSize) ≠ [] := by
    decide +kernel
  generalize [[], mixedSlab] = slabs at hsamples hfilled ⊢
  have h := slabArrayIterator_yields (fun _ => 0#8) slabs 1 1 6 7 (by decide) hfilled
    (by rw [hsamples]; decide)
  rw [hsamples] at h
  exact h

end SlabArrayIterator

end PromTCS
