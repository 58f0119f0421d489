import PromTCS.Lib.Run
import PromTCS.TreeSeries.Store

/-!
# What a put does

`ConPutKV` chooses a slab for the class of the series, writes the chunk as the
next item of the slab and records it in the slot of the series. The slab goes to
the full queue with its last item.
-/

namespace PromTCS

open List Function

/-- The slab of a put when the item is written and the slot is not. -/
abbrev SlabInfo.taking (info : SlabInfo) (call : PutCall) : SlabInfo :=
  { info with cid := classOf call.sourceId call.metricId, nalloc := info.nalloc + 1 }

namespace TreeSeries

/-- How a call changes the slots of its slab and the index. The first case is that
of a series with a slot in the slab, the second that of a new slot, where the
assertions make sure that the ids unfold. -/
inductive SlotStep (call : PutCall) (m : ℕ) (info : SlabInfo) (tree : MassTree) :
    List Slot → MassTree → Prop
  | extend (j : ℕ) (slot : Slot) (hfind : findSlot info call = some j)
      (hslot : info.slots[j]? = some slot) :
      SlotStep call m info tree
        (info.slots.set j { slot with endTime := call.endTime.toNat })
        ((tree.removeMT ⟨call.sourceId, call.metricId, slot.endTime⟩).insertMT
          (info.endKey { slot with endTime := call.endTime.toNat }) (.mem m))
  | add (hfind : findSlot info call = none) (hlen : info.slots.length < maxAllocItem)
      (hunfold : unfolds info call = true) :
      SlotStep call m info tree (info.slots ++ [newSlot call])
        ((tree.insertMT (info.startKey (newSlot call)) (.mem m)).insertMT
          (info.endKey (newSlot call)) (.mem m))

variable {m : ℕ} {call : PutCall} {s s' : TreeSeries} {cfg : Setting}

/-- The item `ConPutKV` writes over `old`. -/
def putItem (call : PutCall) (old : Item) : Item where
  timestamp := call.startTime.toNat
  chunk := copyChunk old.chunk call.value

/-- The state after `ConPutKV` has put a chunk into slab `m`, with the slots, the
index and the transaction numbers it leaves. -/
def afterPut (s : TreeSeries) (call : PutCall) (m : ℕ) (slots : List Slot) (tree : MassTree)
    (txn : ℕ → ℤ) : TreeSeries :=
  let c := classOf call.sourceId call.metricId
  let n := (s.mstable m).nalloc
  let full := n + 1 = maxAllocItem
  { s with
    mstable := update s.mstable m
      { s.mstable m with cid := c, slots := slots, nalloc := n + 1 }
    mslab := update s.mslab m (update (s.mslab m) n (putItem call (s.mslab m n)))
    ctable := update s.ctable c
      { slabId := if full then none else (s.ctable c).slabId, txn := txn }
    massTree := tree
    fullMsinfoq := if full then s.fullMsinfoq ++ [m] else s.fullMsinfoq
    nfullMsinfoq := if full then s.nfullMsinfoq + 1 else s.nfullMsinfoq
    nusedMsinfoq := if full then s.nusedMsinfoq - 1 else s.nusedMsinfoq }

theorem mstable_afterPut_self (s : TreeSeries) (call : PutCall) (m : ℕ) (slots : List Slot)
    (tree : MassTree) (txn : ℕ → ℤ) : (s.afterPut call m slots tree txn).mstable m =
      { (s.mstable m).taking call with slots := slots } := update_self _ _ _

theorem mstable_writeItem (s : TreeSeries) (call : PutCall) (m : ℕ) (c : ClassId) :
    ((s.setMem m { s.mstable m with cid := c }).writeItem call m).mstable m =
      { s.mstable m with cid := c, nalloc := (s.mstable m).nalloc + 1 } := by
  simp [writeItem, setMem]

theorem recordChunk_eq_ok (h : s.recordChunk call m = .ok s') :
    ∃ slots tree txn, SlotStep call m (s.mstable m) s.massTree slots tree ∧
      s' = { s with
        mstable := update s.mstable m { s.mstable m with slots := slots }
        massTree := tree
        ctable := update s.ctable (s.mstable m).cid
          { s.ctable (s.mstable m).cid with txn := txn } } := by
  unfold recordChunk at h
  cases hfind : findSlot (s.mstable m) call with
  | some j =>
    cases hslot : (s.mstable m).slots[j]? with
    | none => simp [hfind, hslot] at h
    | some slot =>
      simp only [hfind, hslot, Except.ok.injEq] at h
      refine ⟨_, _, (s.ctable (s.mstable m).cid).txn, .extend j slot hfind hslot, ?_⟩
      rw [← h, update_eq_self]
      rfl
  | none =>
    simp only [hfind] at h
    split_ifs at h with hlen hunfold
    cases h
    exact ⟨_, _, _, .add hfind (Nat.not_le.1 hlen) hunfold, rfl⟩

theorem putInSlab_eq_ok (h : putInSlab cfg s call m = .ok s') :
    cfg.validSid m = true ∧ (s.mstable m).nalloc < maxAllocItem ∧
      ∃ slots tree txn,
        SlotStep call m ((s.mstable m).taking call) s.massTree slots tree ∧
        s' = s.afterPut call m slots tree txn := by
  simp only [putInSlab] at h
  split_ifs at h with hsid hfull
  rw [Bool.not_eq_true', Bool.not_eq_false] at hsid
  have hlt : (s.mstable m).nalloc < maxAllocItem := by
    simpa [setMem] using hfull
  generalize hs₁ : (s.setMem m { s.mstable m with
    cid := call.cid }).writeItem call m = s₁ at h
  have hinfo := mstable_writeItem s call m call.cid
  rw [hs₁] at hinfo
  cases hrec : s₁.recordChunk call m with
  | error e => simp [hrec, bind, Except.bind] at h
  | ok s₂ =>
    obtain ⟨slots, tree, txn, hstep, hs₂⟩ := recordChunk_eq_ok hrec
    rw [hinfo] at hstep hs₂
    simp only [hrec, bind, Except.bind, pure, Except.pure, Except.ok.injEq] at h
    refine ⟨hsid, hlt, slots, tree, txn, ?_, ?_⟩
    · rw [← hs₁] at hstep
      exact hstep
    · rw [← h, hs₂, ← hs₁]
      by_cases hlast : (s.mstable m).nalloc + 1 = maxAllocItem <;>
        simp [queueIfFull, afterPut, hlast, SlabInfo.slabFull, insertMemFullQueue, setClassSlab,
          writeItem, setMem, putItem]

def putTxn (info : SlabInfo) (call : PutCall) (txn : ℕ → ℤ) : ℕ → ℤ :=
  match findSlot info call with
  | some _ => txn
  | none => update txn info.slots.length call.txn

theorem txn_putInSlab (h : putInSlab cfg s call m = .ok s') :
    (s'.ctable call.cid).txn =
      putTxn (s.mstable m) call (s.ctable call.cid).txn := by
  simp only [putInSlab] at h
  split_ifs at h with hsid hfull
  generalize hs₁ : (s.setMem m { s.mstable m with
    cid := call.cid }).writeItem call m = s₁ at h
  have hinfo := mstable_writeItem s call m call.cid
  rw [hs₁] at hinfo
  have hctable : s₁.ctable = s.ctable := by
    rw [← hs₁]
    rfl
  have hfind : findSlot (s₁.mstable m) call = findSlot (s.mstable m) call := by
    rw [hinfo]
    rfl
  obtain ⟨s₂, hrec, h⟩ := Run.bind_eq_ok h
  cases h
  have hqueue : ((s₂.queueIfFull call.cid m).ctable
      call.cid).txn =
      (s₂.ctable call.cid).txn := by
    unfold queueIfFull
    split
    · simp [setClassSlab, insertMemFullQueue]
    · rfl
  rw [hqueue, putTxn]
  unfold recordChunk at hrec
  rw [hfind] at hrec
  cases hslot : findSlot (s.mstable m) call with
  | some j =>
    simp only [hslot] at hrec
    split at hrec
    · cases hrec
      exact congrArg SlabClass.txn (congrFun hctable _)
    · cases hrec
  | none =>
    simp only [hslot] at hrec
    split_ifs at hrec
    cases hrec
    simp only [addSlot, hinfo, update_self, hctable]

theorem conPutKV_cases {sid : Option ℕ} (h : s.conPutKV cfg call = .ok (sid, s')) :
    (sid = none ∧ s' = s) ∨
      ∃ m s₁, sid = some m ∧
        s.currentSlab call.cid = some (m, s₁) ∧
        putInSlab cfg s₁ call m = .ok s' := by
  unfold conPutKV at h
  cases hcur : s.currentSlab call.cid with
  | none =>
    rw [hcur] at h
    cases h
    exact Or.inl ⟨rfl, rfl⟩
  | some p =>
    obtain ⟨m, s₁⟩ := p
    cases hput : putInSlab cfg s₁ call m with
    | error e => simp [hcur, hput, bind, Except.bind] at h
    | ok s₂ =>
      simp only [hcur, hput, bind, Except.bind, pure, Except.pure, Except.ok.injEq,
        Prod.mk.injEq] at h
      obtain ⟨rfl, rfl⟩ := h
      exact Or.inr ⟨m, s₁, rfl, rfl, hput⟩

theorem currentSlab_cases {s₁ : TreeSeries} {c : ClassId} (h : s.currentSlab c = some (m, s₁)) :
    ((s.ctable c).slabId = some m ∧ s₁ = s) ∨
    ((s.ctable c).slabId = none ∧ ∃ rest, s.freeMsinfoq = m :: rest ∧
      s₁ = { s with
        freeMsinfoq := rest
        nusedMsinfoq := s.nusedMsinfoq + 1
        nfreeMsinfoq := s.nfreeMsinfoq - 1
        mstable := update s.mstable m { s.mstable m with free := false }
        ctable := update s.ctable c { s.ctable c with slabId := some m } }) ∨
    ((s.ctable c).slabId = none ∧ s.freeMsinfoq = [] ∧
      ∃ d rest, s.memEvictSinfoq = (m, d) :: rest ∧
      s₁ = { s with
        memEvictSinfoq := rest
        nMemEvictSinfo := s.nMemEvictSinfo - 1
        nusedMsinfoq := s.nusedMsinfoq + 1
        massTree := s.massTree.updateSlots (s.mstable m) (.disk d)
        mstable := update s.mstable m { (s.mstable m).freeSlab with free := false }
        ctable := update s.ctable c { s.ctable c with slabId := some m } }) := by
  unfold currentSlab at h
  cases hcls : (s.ctable c).slabId with
  | some m' =>
    simp only [hcls, Option.some.injEq, Prod.mk.injEq] at h
    obtain ⟨rfl, rfl⟩ := h
    exact Or.inl ⟨rfl, rfl⟩
  | none =>
    simp only [hcls, takeSlab] at h
    cases hfree : s.freeMsinfoq with
    | cons m' rest =>
      simp only [hfree, Option.some.injEq, Prod.mk.injEq] at h
      obtain ⟨rfl, rfl⟩ := h
      exact Or.inr (Or.inl ⟨rfl, rest, rfl, rfl⟩)
    | nil =>
      cases hevict : s.memEvictSinfoq with
      | nil => simp [hfree, hevict] at h
      | cons p rest =>
        obtain ⟨m', d⟩ := p
        simp only [hfree, hevict, Option.some.injEq, Prod.mk.injEq] at h
        obtain ⟨rfl, rfl⟩ := h
        exact Or.inr (Or.inr ⟨rfl, rfl, d, rest, rfl, rfl⟩)

structure ChoiceFrame (s : TreeSeries) (m : ℕ) (s₁ : TreeSeries) : Prop where
  mslab : s₁.mslab = s.mslab
  dslab : s₁.dslab = s.dslab
  dstable : s₁.dstable = s.dstable
  full : s₁.fullMsinfoq = s.fullMsinfoq
  used : s₁.usedDsinfoq = s.usedDsinfoq
  evict : s₁.diskEvictSinfoq = s.diskEvictSinfoq
  other : ∀ m' ≠ m, s₁.mstable m' = s.mstable m'

theorem currentSlab_frame {s₁ : TreeSeries} {c : ClassId} (h : s.currentSlab c = some (m, s₁)) :
    ChoiceFrame s m s₁ ∧
      (((s₁.mstable m).cid = (s.mstable m).cid ∧ (s₁.mstable m).slots = (s.mstable m).slots ∧
        (s₁.mstable m).nalloc = (s.mstable m).nalloc ∧ s₁.memEvictSinfoq = s.memEvictSinfoq) ∨
      ((s₁.mstable m).slots = [] ∧ ∃ d, s.memEvictSinfoq = (m, d) :: s₁.memEvictSinfoq)) := by
  rcases currentSlab_cases h with ⟨-, rfl⟩ | ⟨-, rest, -, rfl⟩ | ⟨-, -, d, rest, hev, rfl⟩
  · exact ⟨⟨rfl, rfl, rfl, rfl, rfl, rfl, fun _ _ => rfl⟩, Or.inl ⟨rfl, rfl, rfl, rfl⟩⟩
  · refine ⟨⟨rfl, rfl, rfl, rfl, rfl, rfl, fun _ hm => update_of_ne hm _ _⟩, Or.inl ?_⟩
    simp
  · refine ⟨⟨rfl, rfl, rfl, rfl, rfl, rfl, fun _ hm => update_of_ne hm _ _⟩,
      Or.inr ⟨?_, d, hev⟩⟩
    simp [SlabInfo.freeSlab]

end TreeSeries

end PromTCS
