import PromTCS.TreeSeries.Filling

/-!
# What the slabs hold along a run

Wherever the chunks of a run are, in memory or on disk, the slab has an item for each of them,
and the end of a slot is the end of a chunk of its series in the slab.
-/

namespace PromTCS

open List Function

namespace Traced

open TreeSeries

structure Stocked (cfg : Setting) (t : Traced) : Prop where
  indexed : t.Indexed cfg
  slabs : t.Slabs Filled

variable {cfg : Setting} {t : Traced}

theorem Stocked.items (h : t.Stocked cfg) (e : Stored) (he : e ∈ t.ledger) (p : Place)
    (hp : e.slab = some p) :
    ∃ j < (t.store.sinfo p).nalloc, ItemHolds (t.store.slabAt p j) e.call :=
  (h.slabs p (h.indexed.answers e he p hp)).exists_item (mem_callsAt.2 ⟨e, he, hp, rfl⟩)

theorem Stocked.ends (h : t.Stocked cfg) (p : Place) (hans : t.store.tiered.Answers p.toSum)
    (slot : Slot) (hslot : slot ∈ (t.store.sinfo p).slots) : ∃ e ∈ t.ledger, e.slab = some p ∧
      e.call.sourceId = (t.store.sinfo p).getSinfoSourceID slot ∧
      e.call.metricId = (t.store.sinfo p).getSinfoMetricID slot ∧
      e.call.endTime.toNat = slot.endTime := by
  obtain ⟨call, hcall, hends⟩ := (h.slabs p hans).exists_end hslot
  obtain ⟨e, he, hp, rfl⟩ := mem_callsAt.1 hcall
  exact ⟨e, he, hp, hends⟩

theorem stocked_initStable (cfg : Setting) (mslab dslab : ℕ → Slab) :
    Stocked cfg ⟨initStable cfg mslab dslab, []⟩ :=
  ⟨indexed_initStable cfg mslab dslab, slabRule_filled.initStable cfg mslab dslab⟩

variable {s : TreeSeries}

theorem Stocked.congr (h : t.Stocked cfg) (hindexed : Indexed cfg ⟨s, t.ledger⟩)
    (htiered : s.tiered = t.store.tiered) (hsinfo : ∀ p, s.sinfo p = t.store.sinfo p)
    (hslab : ∀ p, s.slabAt p = t.store.slabAt p) : Stocked cfg ⟨s, t.ledger⟩ :=
  ⟨hindexed, h.slabs.congr htiered hsinfo hslab⟩

theorem Stocked.currentSlab (h : t.Stocked cfg) {c : ClassId} {m : ℕ} {s₁ : TreeSeries}
    (hcur : t.store.currentSlab c = some (m, s₁)) : Stocked cfg ⟨s₁, t.ledger⟩ :=
  ⟨h.indexed.currentSlab hcur, h.slabs.currentSlab slabRule_filled h.indexed.answers hcur⟩

theorem Stocked.writeBatch (hne : t.store.batchFull cfg ≠ [])
    (hlen : (t.store.batchFull cfg).length = (t.store.batchDisk cfg).length)
    (h : t.Stocked cfg) : Stocked cfg ⟨t.store.writeBatch cfg, t.relocateAll cfg⟩ :=
  ⟨h.indexed.writeBatch hne hlen,
    h.slabs.writeBatch hne hlen slabRule_filled h.indexed.owned h.indexed.answers⟩

theorem Stocked.conPutKV (h : t.Stocked cfg) {call : PutCall} (hinc : t.Increasing call)
    (hr : InRange call) {sid : Option ℕ} (hput : t.store.conPutKV cfg call = .ok (sid, s)) :
    (t.record call (sid, s)).Stocked cfg := by
  have hindexed := h.indexed.conPutKV hinc hr hput
  rcases conPutKV_cases hput with ⟨rfl, rfl⟩ | ⟨m, s₁, rfl, hcur, hslab⟩
  · exact h
  · obtain ⟨-, -, slots, tree, txn, hstep, rfl⟩ := putInSlab_eq_ok hslab
    have hc := slabOf_currentSlab_self hcur
    have h₁ := h.currentSlab hcur
    exact ⟨hindexed, h₁.slabs.put slabRule_filled hr (h₁.indexed.current _ m hc) hstep⟩

theorem Stocked.pushBack (h : t.Stocked cfg) : Stocked cfg ⟨t.store.pushBack cfg, t.ledger⟩ := by
  refine h.congr h.indexed.pushBack rfl ?_ ?_
  · rintro (m | d) <;> rfl
  · rintro (m | d) <;> rfl

theorem Stocked.migrateReadLazyFlush (h : t.Stocked cfg) {res : Option (List (ℕ × Slab))}
    (hread : t.store.migrateReadLazyFlush cfg = .ok (res, s)) : Stocked cfg ⟨s, t.ledger⟩ := by
  obtain ⟨htiered, hsinfo, -⟩ := migrateReadLazyFlush_frame hread
  refine h.congr (h.indexed.migrateReadLazyFlush hread) htiered hsinfo ?_
  rcases migrateReadLazyFlush_cases hread with ⟨-, rfl⟩ | ⟨-, -, -, rfl⟩
  · exact fun _ => rfl
  · rintro (m | d) <;> rfl

end Traced

end PromTCS
