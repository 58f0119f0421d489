import PromTCS.Head.Watermark
import PromTCS.Lib.Fibers

/-!
# A slab split by series

`flush_db` goes through the slots of a slab and puts the items whose header is that of the series
of the slot. The slots are told apart by the ids unfolded from the slot and the class, the items
by the ids in their header. Both are the ids of the calls of `ConPutKV` that filled the slab, so
that every item goes into the value of one slot.
-/

namespace PromTCS

open List

namespace FlushHead

variable (info : SlabInfo) (slab : Slab)

/-- What `slab_buffer_` holds after the loop over the items, for one slot. -/
def slotItems (slot : Slot) : List Item :=
  ((List.range info.nalloc).map slab).filter
    (headerIs (info.getSinfoSourceID slot) (info.getSinfoMetricID slot))

def slotPuts (slots : List Slot) : List (Key × List Item) :=
  (slots.map fun slot => (info.startKey slot, slotItems info slab slot)).filter
    fun put => !put.2.isEmpty

def slabPuts : List (Key × List Item) :=
  slotPuts info slab info.slots

def Knows (h : FlushHead) (info : SlabInfo) (slots : List Slot) : Prop :=
  ∀ slot ∈ slots,
    (h.levelFlushTime (info.getSinfoSourceID slot, info.getSinfoMetricID slot)).isSome

variable {h h' : FlushHead} {info : SlabInfo} {series : ℕ × ℕ}

theorem isSome_flushSlot {slab : Slab} {slot : Slot} (hok : flushSlot info slab h slot = .ok h')
    (hknown : (h.levelFlushTime series).isSome) : (h'.levelFlushTime series).isSome := by
  unfold flushSlot at hok
  dsimp only at hok
  split_ifs at hok
  · cases hok
    exact hknown
  · split at hok
    · cases hok
    · cases hok
      dsimp only
      by_cases hseries : series = (info.getSinfoSourceID slot, info.getSinfoMetricID slot)
      · rw [hseries, Function.update_self]
        rfl
      · rwa [Function.update_of_ne hseries]

theorem isSome_flushSlab {d : ℕ} {slab : Option Slab} (hok : h.flushSlab d slab = .ok h')
    (hknown : (h.levelFlushTime series).isSome) : (h'.levelFlushTime series).isSome := by
  cases slab with
  | some slab =>
    exact Run.foldlM_invariant (P := fun h' => (h'.levelFlushTime series).isSome) hok hknown
      fun _ _ _ _ hknown hslot => isSome_flushSlot hslot hknown
  | none =>
    simp only [flushSlab] at hok
    split_ifs at hok
    cases hok
    exact hknown

theorem isSome_flushSlabs {isSeq : Bool} {l : List (ℕ × Slab × SlabPtr)}
    (hok : flushSlabs isSeq l h = .ok h') (hknown : (h.levelFlushTime series).isSome) :
    (h'.levelFlushTime series).isSome := by
  induction l generalizing h with
  | nil =>
    cases hok
    exact hknown
  | cons e l ih =>
    obtain ⟨d, slab, ptr⟩ := e
    obtain ⟨h₁, hslab, hrest⟩ := Run.bind_eq_ok hok
    have hknown₁ := isSome_flushSlab hslab hknown
    cases isSeq with
    | true => exact ih hrest hknown₁
    | false => exact ih hrest hknown₁

theorem exists_flushSlot (slab : Slab) {slot : Slot} (hknown : h.Knows info [slot]) :
    ∃ h', flushSlot info slab h slot = .ok h' ∧
      h'.db = h.db ++ slotPuts info slab [slot] := by
  obtain ⟨l, hl⟩ := Option.isSome_iff_exists.1 (hknown slot mem_cons_self)
  by_cases hempty : (slotItems info slab slot).isEmpty = true
  · refine ⟨h, if_pos hempty, ?_⟩
    simp [slotPuts, hempty]
  · have hok : flushSlot info slab h slot = .ok { h with
        db := h.db ++ [(info.startKey slot, slotItems info slab slot)]
        levelFlushTime := Function.update h.levelFlushTime
          (info.getSinfoSourceID slot, info.getSinfoMetricID slot)
          (some (BitVec.ofNat 64 slot.endTime).toInt) } := by
      refine (if_neg hempty).trans ?_
      rw [hl]
      rfl
    refine ⟨_, hok, ?_⟩
    simp [slotPuts, hempty]

theorem exists_flushSlots (slab : Slab) {slots : List Slot} (hknown : h.Knows info slots) :
    ∃ h', slots.foldlM (flushSlot info slab) h = .ok h' ∧
      h'.db = h.db ++ slotPuts info slab slots := by
  induction slots generalizing h with
  | nil => exact ⟨h, rfl, (append_nil _).symm⟩
  | cons slot slots ih =>
    obtain ⟨h₁, hslot, hdb₁⟩ := exists_flushSlot slab
      (show h.Knows info [slot] from
        fun s hs => hknown s (mem_singleton.1 hs ▸ mem_cons_self))
    obtain ⟨h₂, hslots, hdb₂⟩ := ih (h := h₁) fun s hs =>
      isSome_flushSlot hslot (hknown s (mem_cons_of_mem _ hs))
    refine ⟨h₂, ?_, ?_⟩
    · rw [foldlM_cons, hslot]
      exact hslots
    · rw [hdb₂, hdb₁, append_assoc, slotPuts, slotPuts, ← filter_append,
        ← map_append]
      rfl

theorem exists_flushSlab {d : ℕ} (slab : Slab)
    (hknown : h.Knows (h.store.dstable d) (h.store.dstable d).slots) :
    ∃ h', h.flushSlab d (some slab) = .ok h' ∧
      h'.db = h.db ++ slabPuts (h.store.dstable d) slab :=
  exists_flushSlots slab hknown

theorem exists_flushSlabs (isSeq : Bool) (arr : List (ℕ × Slab × SlabPtr))
    (hread : ∀ x ∈ arr, x.2.2 ≠ .null)
    (hknown : ∀ x ∈ arr, h.Knows (h.store.dstable x.1) (h.store.dstable x.1).slots) :
    ∃ h', flushSlabs isSeq arr h = .ok h' ∧
      h'.db = h.db ++ arr.flatMap fun x => slabPuts (h.store.dstable x.1) x.2.1 := by
  induction arr generalizing h with
  | nil => exact ⟨h, rfl, (append_nil _).symm⟩
  | cons x arr ih =>
    obtain ⟨d, slab, ptr⟩ := x
    obtain ⟨h₁, hslab, hdb₁⟩ := exists_flushSlab slab (hknown _ mem_cons_self)
    have hstore : h₁.store = h.store := (flushSlab_frame hslab).1
    have hknown₁ : ∀ x ∈ arr, h₁.Knows (h.store.dstable x.1) (h.store.dstable x.1).slots :=
      fun x hx slot hslot => isSome_flushSlab hslab
        (hknown x (mem_cons_of_mem _ hx) slot hslot)
    rw [← hstore] at hknown₁
    obtain ⟨h₂, hslabs, hdb₂⟩ := ih
      (h := if isSeq then h₁ else { h₁ with pool := h₁.pool.freeBufSlab ptr })
      (fun x hx => hread x (mem_cons_of_mem _ hx))
      (by split_ifs <;> exact hknown₁)
    refine ⟨h₂, ?_, ?_⟩
    · have hptr : ptr ≠ .null := hread _ mem_cons_self
      rw [flushSlabs, if_neg hptr, hslab]
      exact hslabs
    · have hdb : (if isSeq then h₁ else
          { h₁ with pool := h₁.pool.freeBufSlab ptr } : FlushHead).db = h₁.db ∧
          (if isSeq then h₁ else
            { h₁ with pool := h₁.pool.freeBufSlab ptr } : FlushHead).store = h.store := by
        split_ifs <;> exact ⟨rfl, hstore⟩
      rw [hdb₂, hdb.1, hdb.2, hdb₁, append_assoc, flatMap_cons]

end FlushHead

namespace FlushTrace

open TreeSeries Traced FlushHead

def Headed (t : FlushTrace) : Op → Prop
  | .conPutKV call => InRange call ∧ encodeValueHeader call.sourceId call.metricId <+: call.value ∧
      (t.head.levelFlushTime (seriesOf call)).isSome
  | _ => True

instance (t : FlushTrace) : (op : Op) → Decidable (t.Headed op)
  | .conPutKV call => inferInstanceAs (Decidable (InRange call ∧
      encodeValueHeader call.sourceId call.metricId <+: call.value ∧
      (t.head.levelFlushTime (seriesOf call)).isSome))
  | .optBatchWriteLazyFlush => inferInstanceAs (Decidable True)
  | .flushDb _ => inferInstanceAs (Decidable True)

def positions (calls : List PutCall) (sgid mid : ℕ) : List ℕ :=
  (List.range calls.length).filter fun k =>
    (calls[k]?).any fun call => call.sourceId == sgid && call.metricId == mid

structure SplitBySeries (info : SlabInfo) (slab : Slab) (calls : List PutCall) : Prop where
  length_eq : calls.length = info.nalloc
  items : ∀ k call, calls[k]? = some call → ItemHolds (slab k) call
  puts : slabPuts info slab = info.slots.map fun slot => (info.startKey slot,
    (positions calls (info.getSinfoSourceID slot) (info.getSinfoMetricID slot)).map slab)
  series : (info.slots.map fun slot =>
    (info.getSinfoSourceID slot, info.getSinfoMetricID slot)).Nodup
  nonempty : ∀ slot ∈ info.slots,
    positions calls (info.getSinfoSourceID slot) (info.getSinfoMetricID slot) ≠ []
  partition : (info.slots.flatMap fun slot => positions calls (info.getSinfoSourceID slot)
    (info.getSinfoMetricID slot)).Perm (List.range info.nalloc)

/-! ## One slab -/

section Slab

variable {info : SlabInfo} {slab : Slab} {calls : List PutCall} (h : Filled info slab calls)

include h

variable (hheader : ∀ call ∈ calls,
  encodeValueHeader call.sourceId call.metricId <+: call.value)

include hheader

theorem headerIs_item {k : ℕ} (hk : k < calls.length) (sgid mid : ℕ) :
    headerIs sgid mid (slab k) =
      (calls[k]?).any fun call => call.sourceId == sgid && call.metricId == mid := by
  have hget : calls[k]? = some calls[k] := getElem?_eq_getElem hk
  have hmem : calls[k] ∈ calls := getElem_mem hk
  have hown := headerIs_of_itemHolds (h.inRange _ hmem) (hheader _ hmem) (h.items k _ hget)
  rw [headerIs, Bool.and_eq_true, beq_iff_eq, beq_iff_eq] at hown
  rw [hget, Option.any_some, headerIs, hown.1, hown.2]
  rfl

theorem slotItems_eq (slot : Slot) : slotItems info slab slot =
    (positions calls (info.getSinfoSourceID slot) (info.getSinfoMetricID slot)).map slab := by
  rw [slotItems, positions, filter_map, h.nalloc_eq]
  refine congrArg (List.map slab) (filter_congr fun k hk => ?_)
  exact headerIs_item h hheader (mem_range.1 hk) _ _

omit hheader in
theorem positions_ne_nil {slot : Slot} (hslot : slot ∈ info.slots) :
    positions calls (info.getSinfoSourceID slot) (info.getSinfoMetricID slot) ≠ [] := by
  obtain ⟨call, hcall, hsource, hmetric, -⟩ := h.exists_end hslot
  obtain ⟨k, hk⟩ := mem_iff_getElem?.1 hcall
  refine ne_nil_of_mem (a := k) (mem_filter.2 ⟨?_, ?_⟩)
  · exact mem_range.2 (List.getElem?_eq_some_iff.1 hk).1
  · simp [hk, hsource, hmetric]

omit hheader in
theorem positions_perm : (info.slots.flatMap fun slot => positions calls
    (info.getSinfoSourceID slot) (info.getSinfoMetricID slot)).Perm (List.range info.nalloc) := by
  rw [h.nalloc_eq]
  refine Fibers.flatMap_filter_perm (fun k hk => ?_) ?_
  · have hget := getElem?_eq_getElem (mem_range.1 hk)
    obtain ⟨slot, hslot, hsource, hmetric⟩ :=
      h.exists_slot (getElem_mem (mem_range.1 hk))
    refine ⟨slot, hslot, ?_⟩
    rw [hget, hsource, hmetric]
    simp
  · refine (pairwise_map.1 (h.nodup_series)).imp fun {a b} hne k hk ha => ?_
    have hget := getElem?_eq_getElem (mem_range.1 hk)
    rw [hget, Option.any_some, Bool.and_eq_true, beq_iff_eq, beq_iff_eq] at ha
    rw [hget, Option.any_some, Bool.and_eq_false_imp, beq_iff_eq, beq_eq_false_iff_ne]
    intro hsource hmetric
    exact hne (Prod.ext (ha.1.symm.trans hsource) (ha.2.symm.trans hmetric))

theorem splitBySeries : SplitBySeries info slab calls where
  length_eq := h.nalloc_eq.symm
  items := h.items
  puts := by
    have hputs : (info.slots.map fun slot => (info.startKey slot, slotItems info slab slot)) =
        info.slots.map fun slot => (info.startKey slot,
          (positions calls (info.getSinfoSourceID slot) (info.getSinfoMetricID slot)).map slab) :=
      map_congr_left fun slot _ => by rw [slotItems_eq h hheader]
    rw [slabPuts, slotPuts, hputs, filter_eq_self]
    intro put hput
    obtain ⟨slot, hslot, rfl⟩ := mem_map.1 hput
    simp [positions_ne_nil h hslot]
  series := h.nodup_series
  nonempty _ hslot := positions_ne_nil h hslot
  partition := positions_perm h

end Slab

/-! ## Runs -/

structure Splittable (cfg : Setting) (t : FlushTrace) : Prop where
  kept : t.traced.Kept cfg
  slabs : t.traced.Slabs Filled
  headed : ∀ e ∈ t.ledger, encodeValueHeader e.call.sourceId e.call.metricId <+: e.call.value ∧
    (t.head.levelFlushTime (seriesOf e.call)).isSome

theorem splittable_init (cfg : Setting) (mslab dslab : ℕ → Slab)
    (levelFlushTime : ℕ × ℕ → Option ℤ) :
    (init cfg mslab dslab levelFlushTime).Splittable cfg where
  kept := placed_initStable _ cfg mslab dslab
  slabs := slabRule_filled.initStable cfg mslab dslab
  headed e he := by cases he

variable {cfg : Setting} {t t' : FlushTrace}

theorem migrateReadLazyFlush_of_flushDb {h h' : FlushHead} {full : ℕ → Bool}
    (hok : h.flushDb cfg full = .ok h') :
    (∃ res, h.store.migrateReadLazyFlush cfg = .ok (res, h'.store)) ∧
      ∀ series, (h.levelFlushTime series).isSome → (h'.levelFlushTime series).isSome := by
  obtain ⟨⟨res, store⟩, hmigrate, hok⟩ := Run.bind_eq_ok hok
  rcases migrateReadLazyFlush_eq_ok hmigrate with ⟨-, rfl, rfl⟩ | ⟨-, rfl⟩
  · cases hok
    exact ⟨⟨none, hmigrate⟩, fun _ hknown => hknown⟩
  · obtain ⟨⟨ptrs, pool⟩, -, hok⟩ := Run.bind_eq_ok hok
    have hstore : h'.store = store := (flushSlabs_frame hok).1
    exact ⟨⟨_, hstore ▸ hmigrate⟩, fun _ hknown => isSome_flushSlabs hok hknown⟩

theorem Splittable.step (h : t.Splittable cfg) {op : Op} (hop : t.Headed op)
    (hok : t.step cfg op = .ok t') : t'.Splittable cfg := by
  cases op with
  | conPutKV call =>
    obtain ⟨⟨sid, s⟩, hput, rfl⟩ := Run.map_eq_ok hok
    have hstep : t.traced.step cfg (.conPutKV call) = .ok (t.traced.record call (sid, s)) :=
      congrArg (Except.map _) hput
    have hsame : traced ⟨{ t.head with store := s }, (t.traced.record call (sid, s)).ledger⟩ =
        t.traced.record call (sid, s) := by
      cases sid <;> rfl
    refine ⟨?_, ?_, fun e he => ?_⟩
    · rw [hsame]
      exact h.kept.step (by simp) hstep
    · rw [hsame]
      refine h.slabs.step slabRule_filled h.kept (by simp) (fun call' heq => ?_) hstep
      cases heq
      exact hop.1
    · rcases mem_ledger_step hstep he with ⟨e₀, he₀, heq⟩ | heq
      · rw [heq]
        exact h.headed e₀ he₀
      · cases heq
        exact hop.2
  | optBatchWriteLazyFlush =>
    obtain ⟨⟨b, s⟩, hwrite, rfl⟩ := Run.map_eq_ok hok
    have hstep : t.traced.step cfg .optBatchWriteLazyFlush =
        .ok ⟨s, if b then t.traced.relocateAll cfg else t.ledger⟩ :=
      congrArg (Except.map _) hwrite
    refine ⟨h.kept.step (by simp) hstep,
      h.slabs.step slabRule_filled h.kept (by simp) (by simp) hstep, fun e he => ?_⟩
    rcases mem_ledger_step hstep he with ⟨e₀, he₀, heq⟩ | heq
    · rw [heq]
      exact h.headed e₀ he₀
    · cases heq
  | flushDb full =>
    obtain ⟨head, hflush, rfl⟩ := Run.map_eq_ok hok
    obtain ⟨⟨res, hmigrate⟩, hknown⟩ := migrateReadLazyFlush_of_flushDb hflush
    have hstep : t.traced.step cfg .migrateReadLazyFlush = .ok ⟨head.store, t.ledger⟩ :=
      congrArg (Except.map _) hmigrate
    exact ⟨h.kept.step (by simp) hstep,
      h.slabs.step slabRule_filled h.kept (by simp) (by simp) hstep,
      fun e he => ⟨(h.headed e he).1, hknown _ (h.headed e he).2⟩⟩

theorem exists_migrateReadLazyFlush {s : TreeSeries} (hskip : s.skipsMigration cfg = false)
    (hbuf : cfg.nbufSlab ≠ 0) :
    ∃ s', s.migrateReadLazyFlush cfg =
      .ok (some ((s.migrated cfg).zip (s.diskRead (s.migrated cfg))), s') ∧
      s'.dstable = s.dstable := by
  rw [migrateReadLazyFlush, if_neg (of_decide_eq_false hskip), if_neg hbuf]
  exact ⟨_, rfl, rfl⟩

section Flush

variable (h : t.Splittable cfg) {d : ℕ} (hd : d ∈ t.head.store.usedDsinfoq)

include h hd

theorem Splittable.filled : Filled (t.head.store.dstable d) (t.head.store.dslab d)
    (callsAt t.ledger (.disk d)) := h.slabs (.disk d) (Or.inl hd)

theorem Splittable.split : SplitBySeries (t.head.store.dstable d) (t.head.store.dslab d)
    (callsAt t.ledger (.disk d)) := by
  refine splitBySeries (h.filled hd) fun call hcall => ?_
  obtain ⟨e, he, -, rfl⟩ := mem_callsAt.1 hcall
  exact (h.headed e he).1

theorem Splittable.knows : t.head.Knows (t.head.store.dstable d)
    (t.head.store.dstable d).slots := by
  intro slot hslot
  obtain ⟨call, hcall, hsource, hmetric, -⟩ := (h.filled hd).exists_end hslot
  obtain ⟨e, he, -, rfl⟩ := mem_callsAt.1 hcall
  rw [← hsource, ← hmetric]
  exact (h.headed e he).2

end Flush

/-- In every state reached every slab that waits to be migrated is split by series. If `flush_db`
does not return at once and reads the slabs it takes, each with its own contents, it returns and
has put what they are split into. -/
theorem flushDb_splitsBySeries (cfg : Setting) (mslab dslab : ℕ → Slab)
    (levelFlushTime : ℕ × ℕ → Option ℤ) (t : FlushTrace)
    (hrun : Run.Reaches Headed (step cfg) (init cfg mslab dslab levelFlushTime) t) :
    (∀ d ∈ t.head.store.usedDsinfoq, SplitBySeries (t.head.store.dstable d)
      (t.head.store.dslab d) (callsAt t.ledger (.disk d))) ∧
    ∀ full ptrs pool, t.head.store.skipsMigration cfg = false → cfg.nbufSlab ≠ 0 →
      ReadInOrder cfg t.head.store →
      migrateRead full (t.head.store.migrated cfg) t.head.pool = .ok (ptrs, pool) →
      (∀ ptr ∈ ptrs, ptr ≠ .null) →
      ∃ head, t.head.flushDb cfg full = .ok head ∧
        head.db = t.head.db ++ (t.head.store.migrated cfg).flatMap fun d =>
          slabPuts (t.head.store.dstable d) (t.head.store.dslab d) := by
  have h : t.Splittable cfg := hrun.invariant (splittable_init cfg mslab dslab levelFlushTime)
    fun _ _ _ ih hop hok => ih.step hop hok
  refine ⟨fun d hd => h.split hd, ?_⟩
  intro full ptrs pool hskip hbuf horder hread hnull
  obtain ⟨store, hmigrate, htable⟩ := exists_migrateReadLazyFlush hskip hbuf
  have hlen := length_migrateRead hread
  obtain ⟨head, hslabs, hdb⟩ := exists_flushSlabs (isSeq (t.head.store.migrated cfg))
    (migrateArray cfg t.head.store ptrs) (h := { t.head with store := store, pool := pool })
    (fun x hx => hnull _ (mem_migrateArray horder hskip hx).2.2)
    (fun x hx => by
      rw [htable]
      exact h.knows (mem_migrateArray horder hskip hx).1)
  refine ⟨head, ?_, hdb.trans (congrArg (t.head.db ++ ·) ?_)⟩
  · rw [FlushHead.flushDb, hmigrate]
    simp only [bind, Except.bind, map_fst_pairs, hread]
    exact hslabs
  · rw [← map_fst_migrateArray hlen, flatMap_map]
    refine flatMap_congr fun x hx => ?_
    rw [htable, (mem_migrateArray horder hskip hx).2.1]

def mixedPuts : List Op :=
  (List.range 8).flatMap fun k => [.conPutKV (headedPut 1 k), .conPutKV (headedPut 10001 k)]

/-- Slab 0 has two slots and is the first to be flushed. -/
theorem flushDb_splitsBySeries_mixed :
    ∃ t, Run.Reaches Headed (step sampleSetting) sampleTrace t ∧
      (t.head.store.dstable 0).slots.length = 2 ∧
      SplitBySeries (t.head.store.dstable 0) (t.head.store.dslab 0)
        (callsAt t.ledger (.disk 0)) ∧
      ∃ head, t.head.flushDb sampleSetting (fun _ => true) = .ok head ∧
        head.db = t.head.db ++ slabPuts (t.head.store.dstable 0) (t.head.store.dslab 0) := by
  have hrun : (Run.exec Headed (step sampleSetting) sampleTrace
      (mixedPuts ++ headedPuts 1 8 16 ++ [.optBatchWriteLazyFlush])).map
      (fun t => (decide (0 ∈ t.head.store.usedDsinfoq), (t.head.store.dstable 0).slots.length,
        t.head.store.skipsMigration sampleSetting, t.head.store.migrated sampleSetting,
        decide (ReadInOrder sampleSetting t.head.store))) = some (true, 2, false, [0], true) := by
    decide +kernel
  obtain ⟨t, hreach, hview⟩ := Run.exists_reaches_of_exec hrun
  simp only [Prod.mk.injEq, decide_eq_true_eq] at hview
  obtain ⟨hused, hslots, hskip, hmigrated, horder⟩ := hview
  obtain ⟨hsplit, hflush⟩ := flushDb_splitsBySeries sampleSetting _ _ _ t hreach
  obtain ⟨head, hok, hdb⟩ := hflush (fun _ => true) [.sequential 0] t.head.pool hskip (by decide)
    horder (by rw [hmigrated]; rfl) (by simp)
  rw [hmigrated, flatMap_singleton] at hdb
  exact ⟨t, hreach, hslots, hsplit 0 hused, head, hok, hdb⟩

end FlushTrace

end PromTCS
