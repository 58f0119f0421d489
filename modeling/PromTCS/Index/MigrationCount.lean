import Mathlib.Data.Set.Card
import PromTCS.Index.Migration

/-!
# How many lists migration moves

`migrate` returns the size of the batch it meant to move. The batch is taken from the end of
the hot labels, and if there are fewer of them than its size, the first position wraps around
and nothing is moved. Afterwards no label is hot, so that a list that stays in memory is not
chosen again.
-/

namespace PromTCS

open List

open MergeSetPostings (key)

namespace ThmapPostings

variable {t t' : ThmapPostings} {l : Label} {order : HotSort} {percent : Percent}

/-! ## Batches -/

theorem batch_subperm (t : ThmapPostings) (order : HotSort) (percent : Percent) :
    (t.batch order percent).Subperm t.hotLabels := by
  have hperm : ((order.sort (t.hotLabels.map fun l => (l, t.hotOf l))).map Prod.fst).Perm
      t.hotLabels := by
    refine ((order.perm _).map Prod.fst).trans ?_
    rw [map_map]
    exact List.Perm.of_eq (map_id _)
  exact ((drop_sublist _ _).map Prod.fst).subperm.trans hperm.subperm

theorem length_batch (hlen : t.hotLabels.length < 2 ^ 32) :
    (t.batch order percent).length = if (percent.batchSize t.labelNum).toNat ≤ t.hotLabels.length
      then (percent.batchSize t.labelNum).toNat else 0 := by
  have hsort := (order.perm (t.hotLabels.map fun l => (l, t.hotOf l))).length_eq
  rw [length_map] at hsort
  have hsize := (percent.batchSize t.labelNum).isLt
  rw [batch, batchOf, length_map, length_drop, hsort, BitVec.toNat_sub,
    BitVec.toNat_ofNat, Nat.mod_eq_of_lt hlen]
  split <;> omega

/-! ## A call of `migrate` -/

theorem Readable.exists_foldlM_addMergeSet {batch : List Label} (h : t.Readable)
    (hbatch : ∀ l ∈ batch, t.posting l ≠ none) :
    ∃ t', batch.foldlM ThmapPostings.addMergeSet t = .ok t' := by
  induction batch generalizing t with
  | nil => exact ⟨t, rfl⟩
  | cons l batch ih =>
    rw [forall_mem_cons] at hbatch
    obtain ⟨val, hadd, h₁, -⟩ := h.addMergeSet hbatch.1
    rw [foldlM_cons, hadd]
    exact ih h₁ hbatch.2

theorem exists_foldlM_delPosting {batch : List Label}
    (hbatch : ∀ l ∈ batch, t.keyMap l.label ≠ none) :
    ∃ t', batch.foldlM delPosting t = .ok t' := by
  induction batch generalizing t with
  | nil => exact ⟨t, rfl⟩
  | cons l batch ih =>
    rw [forall_mem_cons] at hbatch
    obtain ⟨values, hvalues⟩ := Option.ne_none_iff_exists'.1 hbatch.1
    have hdel : ∃ t₁, t.delPosting l = .ok t₁ := by
      rw [delPosting, hvalues]
      exact ⟨_, rfl⟩
    obtain ⟨t₁, hdel⟩ := hdel
    rw [foldlM_cons, hdel]
    exact ih fun l' hl' => ((delPosting_eq_ok hdel).2.2 _).2 (hbatch.2 l' hl')

theorem Readable.refreshLoop_hotList (h : t.Readable) : refreshLoop t.hotList t =
    .ok ((t.hotList.map Prod.fst).map fun l => (l, t.hotOf l), t) :=
  refreshLoop_eq fun p hp => h.hot p.1 (mem_append_left _ (mem_map_of_mem hp))

theorem Readable.migrateCount_eq (h : t.Readable) :
    t.migrateCount percent = .ok (percent.batchSize t.labelNum) := by
  rw [migrateCount, h.refreshLoop_hotList]
  rfl

theorem Readable.exists_migrate_iff (h : t.Readable) (order : HotSort) (percent : Percent) :
    (∃ t', t.migrate order percent = .ok t') ↔ t.hotLabels.length < 2 ^ 32 := by
  have hbatch : ∀ l ∈ t.batch order percent, t.posting l ≠ none := fun l hl =>
    h.hot l (mem_hotLabels_of_mem_batch hl)
  have h₁ : ({ t with hotQueue := [], hotList := t.hotLabels.map fun l => (l, t.hotOf l) } :
      ThmapPostings).Readable := by
    refine ⟨h.storable, fun l hl => h.hot l ?_, h.stored⟩
    simpa [hotLabels] using hl
  simp only [ThmapPostings.migrate, h.refreshLoop_hotList, bind, Except.bind,
    h.drainQueue_refreshed, length_map]
  split
  · exact iff_of_false (by rintro ⟨_, hok⟩; cases hok) (Nat.not_lt.2 ‹_›)
  · refine iff_of_true ?_ (Nat.not_le.1 ‹_›)
    obtain ⟨t₂, hadd⟩ := h₁.exists_foldlM_addMergeSet hbatch
    obtain ⟨-, hsame, -⟩ := h₁.foldlM_addMergeSet hbatch hadd
    have hkeys : t₂.keyMap = t.keyMap := by
      rw [hsame]
    obtain ⟨t₃, hdel⟩ := exists_foldlM_delPosting fun l hl => by
      rw [hkeys]
      exact keyMap_ne_none (hbatch l hl)
    rw [batch] at hadd hdel
    rw [hadd]
    simp only [hdel]
    exact ⟨_, rfl⟩

theorem Readable.posting_migrate (h : t.Readable) (hok : t.migrate order percent = .ok t') :
    t'.posting l = none ↔ l ∈ t.batch order percent ∨ t.posting l = none := by
  obtain ⟨-, hspilled, -⟩ := h.migrate hok
  rw [← mem_spilled_eq_none, ← mem_spilled_eq_none, hspilled]
  simp [Spill.spill, or_iff_not_imp_left]

/-- `migrate` returns the number of lists it moves, reads `hot_list_` inside its bounds, and the
lists it leaves can be chosen later. -/
def MigratesRight (t : ThmapPostings) (order : HotSort) (percent : Percent) : Prop :=
  ∃ n t', t.migrateCount percent = .ok n ∧ t.migrate order percent = .ok t' ∧
    n.toNat = {l | t.posting l ≠ none ∧ t'.posting l = none}.ncard ∧
    (∀ i ∈ batchPositions (order.sort (t.hotLabels.map fun l => (l, t.hotOf l))) n,
      i < t.hotLabels.length) ∧
    ∀ l, t'.posting l ≠ none → l ∈ t'.hotLabels

structure HotOnce (t : ThmapPostings) : Prop extends t.Readable where
  nodup : t.hotLabels.Nodup

theorem HotOnce.nodup_batch (h : t.HotOnce) : (t.batch order percent).Nodup := by
  obtain ⟨l, hperm, hsub⟩ := batch_subperm t order percent
  exact hperm.nodup_iff.1 (h.nodup.sublist hsub)

theorem HotOnce.ncard_moved (h : t.HotOnce) (hok : t.migrate order percent = .ok t') :
    {l | t.posting l ≠ none ∧ t'.posting l = none}.ncard = (t.batch order percent).length := by
  have hset : {l | t.posting l ≠ none ∧ t'.posting l = none} =
      ((t.batch order percent).toFinset : Set Label) := by
    ext l
    rw [Set.mem_ofPred_eq, h.posting_migrate hok, Finset.mem_coe, mem_toFinset]
    constructor
    · rintro ⟨hl, hmem | hnone⟩
      · exact hmem
      · exact absurd hnone hl
    · intro hmem
      exact ⟨h.hot l (mem_hotLabels_of_mem_batch hmem), Or.inl hmem⟩
  rw [hset, Set.ncard_coe_finset, toFinset_card_of_nodup h.nodup_batch]

theorem positions_lt (i : ℕ) (n : BitVec 32)
    (hi : i ∈ batchPositions (order.sort (t.hotLabels.map fun l => (l, t.hotOf l))) n) :
    i < t.hotLabels.length := by
  have hsort := (order.perm (t.hotLabels.map fun l => (l, t.hotOf l))).length_eq
  rw [length_map] at hsort
  rw [batchPositions, mem_range'_1, hsort] at hi
  omega

theorem HotOnce.migratesRight_iff (h : t.HotOnce) : t.MigratesRight order percent ↔
    (percent.batchSize t.labelNum).toNat = t.hotLabels.length ∧
      ∀ l, t.posting l ≠ none → l ∈ t.hotLabels := by
  constructor
  · rintro ⟨n, t', hn, hok, hcount, -, hleft⟩
    rw [h.migrateCount_eq] at hn
    cases hn
    have hmoved : ∀ l, t.posting l ≠ none → l ∈ t.batch order percent := by
      intro l hl
      by_contra hnot
      have hstays : t'.posting l ≠ none := fun hnone =>
        ((h.posting_migrate hok).1 hnone).elim hnot hl
      have hhot := hleft l hstays
      rw [(h.migrate hok).2.2] at hhot
      exact absurd hhot not_mem_nil
    have hle : t.hotLabels.length ≤ (t.batch order percent).length :=
      (subperm_of_subset h.nodup fun l hl => hmoved l (h.hot l hl)).length_le
    have hge := (batch_subperm t order percent).length_le
    rw [h.ncard_moved hok] at hcount
    exact ⟨hcount.trans (le_antisymm hge hle), fun l hl => mem_hotLabels_of_mem_batch (hmoved l hl)⟩
  · rintro ⟨hsize, hall⟩
    have hlen : t.hotLabels.length < 2 ^ 32 := hsize ▸ (percent.batchSize t.labelNum).isLt
    obtain ⟨t', hok⟩ := (h.exists_migrate_iff order percent).2 hlen
    have hbatch : (t.batch order percent).length = t.hotLabels.length := by
      rw [length_batch hlen, if_pos hsize.le, hsize]
    have hperm := (batch_subperm t order percent).perm_of_length_le hbatch.ge
    refine ⟨_, t', h.migrateCount_eq, hok, ?_, fun i hi => positions_lt i _ hi, fun l hl => ?_⟩
    · rw [h.ncard_moved hok, hbatch, hsize]
    · refine absurd ((h.posting_migrate hok).2 ?_) hl
      by_cases hnone : t.posting l = none
      · exact Or.inr hnone
      · exact Or.inl (hperm.mem_iff.2 (hall l hnone))

/-! ## Runs -/

theorem hotOnce_empty : empty.HotOnce where
  toReadable := readable_empty
  nodup := nodup_nil

theorem HotOnce.newPosting {c : ConcurrencyPostingList} (h : t.HotOnce) (hc : c.Storable)
    (hl : t.posting l = none) (hok : t.newPosting l c = .ok t') : t'.HotOnce := by
  refine ⟨h.toReadable.newPosting hc hok, ?_⟩
  rw [newPosting_eq_ok hok]
  change (t.hotList.map Prod.fst ++ (t.hotQueue ++ [l])).Nodup
  rw [← append_assoc]
  refine List.nodup_append.2 ⟨h.nodup, nodup_singleton l, ?_⟩
  rintro a ha b hb rfl
  rw [mem_singleton.1 hb] at ha
  exact h.hot l ha hl

theorem HotOnce.drained (h : t.HotOnce) (hok : t.drainIfLong = .ok t') : t'.HotOnce := by
  refine ⟨(h.toReadable.drained hok).1, ?_⟩
  rw [drainIfLong] at hok
  split at hok
  · rw [h.drainQueue_eq] at hok
    cases hok
    simpa [hotLabels, Function.comp_def] using h.nodup
  · cases hok
    exact h.nodup

theorem HotOnce.add (h : t.HotOnce) {id : Word} (hok : t.add id l = .ok t') : t'.HotOnce := by
  have hreadable := (h.toReadable.add hok).1
  obtain ⟨t₁, hdrain, hok⟩ := Run.bind_eq_ok hok
  have h₁ := h.drained hdrain
  cases hl : t₁.posting l with
  | some c =>
    simp only [hl] at hok
    obtain ⟨c', -, hok⟩ := Run.bind_eq_ok hok
    cases hok
    exact ⟨hreadable, h₁.nodup⟩
  | none =>
    simp only [hl] at hok
    obtain ⟨c', hinsert, hok⟩ := Run.bind_eq_ok hok
    obtain ⟨hc', -⟩ := ConcurrencyPostingList.storable_empty.insert id.isLt hinsert
    exact h₁.newPosting hc' hl hok

theorem HotOnce.posting_add (h : t.HotOnce) {id : Word} (hok : t.add id l = .ok t') {l' : Label}
    (hl' : t'.posting l' ≠ none) : l' = l ∨ t.posting l' ≠ none := by
  refine or_iff_not_imp_left.2 fun hne hnone => hl' ?_
  rw [← mem_spilled_eq_none, (h.toReadable.add hok).2]
  exact (Function.update_of_ne hne _ _).trans (mem_spilled_eq_none.2 hnone)

theorem HotOnce.step (h : t.HotOnce) {op : Op} (hok : t.step order op = .ok t') : t'.HotOnce := by
  cases op with
  | add id l => exact h.add hok
  | get l =>
    obtain ⟨⟨r, t₁⟩, hget, hok⟩ := Run.bind_eq_ok hok
    cases hok
    rcases h.get_cases hget with rfl | ⟨hl, -, c, hc, -, hnew⟩
    · exact h
    · exact h.newPosting hc hl hnew
  | getAndRead l =>
    obtain ⟨r, -, hok⟩ := Run.bind_eq_ok hok
    cases hok
    exact h
  | migrate percent =>
    obtain ⟨h', -, hhot⟩ := h.migrate hok
    exact ⟨h', hhot ▸ nodup_nil⟩

theorem hotOnce_of_reaches (hrun : Run.Reaches (fun _ _ => True) (step order) empty t) :
    t.HotOnce :=
  hrun.invariant hotOnce_empty fun _ _ _ hs _ hok => hs.step hok

end ThmapPostings

open ThmapPostings in
/-- In every run a call of `migrate` is right exactly if its batch is as large as there are hot
labels, and every list in memory has a hot label. -/
theorem migrate_right_iff (order : HotSort) (percent : Percent) (t : ThmapPostings)
    (hrun : Run.Reaches (fun _ _ => True) (step order) empty t) :
    t.MigratesRight order percent ↔
      (percent.batchSize t.labelNum).toNat = t.hotLabels.length ∧
        ∀ l, t.posting l ≠ none → l ∈ t.hotLabels :=
  (hotOnce_of_reaches hrun).migratesRight_iff

/-- The label `a="2"`. -/
def otherLabel : Label := ⟨[97], [50]⟩

def halfOfLabels : Percent where
  batchSize n := n / 2
  le n := by
    rw [BitVec.le_def, BitVec.toNat_udiv]
    exact Nat.div_le_self _ _

open ThmapPostings in
/-- Both lists are migrated. -/
theorem migrate_right_everyLabel :
    ∃ t, Run.Reaches (fun _ _ => True) (step stableSort) empty t ∧
      t.hotLabels = [sampleLabel, otherLabel] ∧ t.MigratesRight stableSort everyLabel := by
  have hrun : ((step stableSort empty (.add 1 sampleLabel)).toOption.bind fun t₁ =>
      (step stableSort t₁ (.add 2 otherLabel)).toOption).map
        (fun t => (t.hotLabels, t.labelNum)) = some ([sampleLabel, otherLabel], 2) := by
    decide +kernel
  obtain ⟨t, hbind, hview⟩ := Option.map_eq_some_iff.1 hrun
  obtain ⟨t₁, hfirst, hsecond⟩ := Option.bind_eq_some_iff.1 hbind
  obtain ⟨hhot, hnum⟩ := Prod.mk.inj hview
  have hok₁ := Run.eq_ok_of_toOption hfirst
  have hok := Run.eq_ok_of_toOption hsecond
  have hreach : Run.Reaches (fun _ _ => True) (step stableSort) empty t :=
    .tail (.single ⟨_, trivial, hok₁⟩) ⟨_, trivial, hok⟩
  refine ⟨t, hreach, hhot, (migrate_right_iff stableSort everyLabel t hreach).2 ⟨?_, ?_⟩⟩
  · rw [hhot, hnum]
    rfl
  · intro l hl
    rw [hhot]
    have h₁ := hotOnce_empty.add hok₁
    rcases h₁.posting_add hok hl with rfl | hl
    · exact mem_cons_of_mem _ (mem_singleton_self _)
    · rcases hotOnce_empty.posting_add hok₁ hl with rfl | hl
      · exact mem_cons_self
      · exact absurd rfl hl

open ThmapPostings in
/-- One of two lists is migrated. The other one is not hot any more, and a second call returns 1
and moves nothing. -/
theorem migrate_loses :
    ∃ t t', Run.Reaches (fun _ _ => True) (step stableSort) empty t ∧
      ¬ t.MigratesRight stableSort halfOfLabels ∧
      t.step stableSort (.migrate halfOfLabels) = .ok t' ∧ t'.hotLabels = [] ∧
      ¬ t'.MigratesRight stableSort halfOfLabels := by
  have hrun : (Run.exec (fun _ _ => True) (step stableSort) empty
      [.add 1 sampleLabel, .add 2 otherLabel]).bind (fun t =>
        (step stableSort t (.migrate halfOfLabels)).toOption.map fun t' =>
          ((t.hotLabels, t.labelNum), (t'.hotLabels, t'.labelNum))) =
        some (([sampleLabel, otherLabel], 2), ([], 2)) := by
    decide +kernel
  obtain ⟨t, ht, hmap⟩ := Option.bind_eq_some_iff.1 hrun
  obtain ⟨t', ht', hview⟩ := Option.map_eq_some_iff.1 hmap
  simp only [Prod.mk.injEq] at hview
  obtain ⟨⟨hhot, hnum⟩, hhot', hnum'⟩ := hview
  have hreach := Run.reaches_of_exec ht
  have h := hotOnce_of_reaches hreach
  have hok := Run.eq_ok_of_toOption ht'
  refine ⟨t, t', hreach, fun hright => ?_, hok, hhot', fun hright => ?_⟩
  · have hsize := (h.migratesRight_iff.1 hright).1
    rw [hhot, hnum] at hsize
    exact absurd hsize (by decide)
  · have hsize := ((h.step hok).migratesRight_iff.1 hright).1
    rw [hhot', hnum'] at hsize
    exact absurd hsize (by decide)

end PromTCS
