import Mathlib.Data.List.Sort
import PromTCS.Index.ThmapPostings
import PromTCS.Lib.Run
import PromTCS.Lib.Spill

/-!
# What migration does to the inverted index

The posting lists of `ThmapPostings` are lists spilled to a keyed store: a label is looked
up in memory, and in the store only if its name has a map of values. Each operation is one
of the operations on such lists, and the conditions under which these keep every lookup
right become conditions on the index.

A list that is started while an older part of it is in the store hides that part. And the
key of a label is its name and value written one after the other, so different labels may
have one key.
-/

namespace PromTCS

open List Function Run

open MergeSetPostings (key)

/-! ## Lists and their values in the store -/

theorem PrefixPostingsV2.Blocked.listing_eq {p : PrefixPostingsV2} (h : p.Blocked) :
    p.listing = p.ids := by
  have hunread : Unread p.resetCursor p.ids := ⟨⟨h.length_eq, h.blocks⟩, rfl, rfl⟩
  refine walks_cursorOps.readLoop_fresh hunread ?_
  rw [h.length_ids]
  exact Nat.lt_succ_self _

namespace MergeSetPostings

open Coding

theorem getIds_flatMap {ids : List ℕ} (hids : ∀ id ∈ ids, id < 2 ^ 64) :
    getIds ids.length (ids.flatMap fun id => putFixed64 (BitVec.ofNat 64 id)) = some ids := by
  induction ids with
  | nil => rfl
  | cons id ids ih =>
    rw [forall_mem_cons] at hids
    have hid : (BitVec.ofNat 64 id).toNat = id := by
      rw [BitVec.toNat_ofNat, Nat.mod_eq_of_lt hids.1]
    rw [length_cons, getIds, flatMap_cons, getFixed64_putFixed64]
    simp only [bind, Option.bind_some, ih hids.2, hid, pure]

theorem decode_encode {p : PrefixPostingsV2} (h : p.Blocked) (hnum : p.num < 2 ^ 31)
    (hids : ∀ id ∈ p.ids, id < 2 ^ 64) : decode (encode p) = some p.ids := by
  have hcount : (BitVec.ofNat 32 p.num).toNat = p.ids.length := by
    rw [BitVec.toNat_ofNat, h.length_ids]
    exact Nat.mod_eq_of_lt (Nat.lt_trans hnum (by decide))
  rw [encode, decode, getFixed32_putFixed32, h.listing_eq]
  simp only [bind, Option.bind_some, hcount]
  exact getIds_flatMap hids

end MergeSetPostings

namespace ConcurrencyPostingList

open ThmapPostings (Fault)

structure Storable (c : ConcurrencyPostingList) : Prop where
  blocked : c.postingList.Blocked
  num_lt : c.postingList.num < 2 ^ 31
  id_lt : ∀ id ∈ c.postingList.ids, id < 2 ^ 64

theorem storable_empty : empty.Storable where
  blocked := PrefixPostingsV2.valid_empty.blocked
  num_lt := by decide
  id_lt _ h := by cases h

theorem Storable.insert {c c' : ConcurrencyPostingList} (h : c.Storable) {id : ℕ}
    (hid : id < 2 ^ 64) (hok : c.insert id = .ok c') :
    c'.Storable ∧ ∀ x, x ∈ c'.postingList.ids ↔ x = id ∨ x ∈ c.postingList.ids := by
  obtain ⟨hblocked, hmem⟩ := h.blocked.insert id
  simp only [ConcurrencyPostingList.insert] at hok
  split at hok
  · cases hok
  · cases hok
    refine ⟨⟨hblocked, Nat.not_le.1 ‹_›, fun x hx => ?_⟩, hmem⟩
    rcases (hmem x).1 hx with rfl | hx
    · exact hid
    · exact h.id_lt x hx

theorem Storable.foldlM_insert {ids : List ℕ} {c c' : ConcurrencyPostingList} (h : c.Storable)
    (hids : ∀ id ∈ ids, id < 2 ^ 64)
    (hok : ids.foldlM ConcurrencyPostingList.insert c = .ok c') :
    c'.Storable ∧ ∀ x, x ∈ c'.postingList.ids ↔ x ∈ ids ∨ x ∈ c.postingList.ids := by
  induction ids generalizing c with
  | nil =>
    cases hok
    exact ⟨h, fun x => by simp⟩
  | cons id ids ih =>
    rw [forall_mem_cons] at hids
    rw [foldlM_cons] at hok
    obtain ⟨c₁, hinsert, hrest⟩ := bind_eq_ok hok
    obtain ⟨h₁, hmem₁⟩ := h.insert hids.1 hinsert
    obtain ⟨h', hmem⟩ := ih h₁ hids.2 hrest
    refine ⟨h', fun x => ?_⟩
    rw [hmem, hmem₁, mem_cons, or_left_comm, or_assoc]

end ConcurrencyPostingList

namespace ThmapPostings

/-! ## The index as spilled lists -/

def storedIds (t : ThmapPostings) (k : List Byte) : List ℕ :=
  ((t.mergeset k).bind MergeSetPostings.decode).getD []

variable {t t' : ThmapPostings} {l : Label} {c : ConcurrencyPostingList}

theorem keyMap_ne_none (h : t.posting l ≠ none) : t.keyMap l.label ≠ none := by
  intro hname
  rw [posting, hname] at h
  exact h rfl

def spilled (t : ThmapPostings) : Spill (List Byte) ℕ Label.label where
  mem l := (t.posting l).map fun c => {x | x ∈ c.postingList.ids}
  disk k := {x | x ∈ t.storedIds k}
  known := {name | t.keyMap name ≠ none}
  known_of_mem {l} h := keyMap_ne_none fun hnone => h (by rw [hnone]; rfl)

theorem mem_spilled_eq_none :
    t.spilled.mem l = none ↔ t.posting l = none := Option.map_eq_none_iff

theorem mem_spilled_of_posting (h : t.posting l = some c) :
    t.spilled.mem l = some {x | x ∈ c.postingList.ids} := by
  simp only [spilled, h, Option.map_some]

theorem mem_known {name : List Byte} :
    name ∈ t.spilled.known ↔ t.keyMap name ≠ none := Iff.rfl

/-- The labels `migrate` chooses from. -/
def hotLabels (t : ThmapPostings) : List Label := t.hotList.map Prod.fst ++ t.hotQueue

structure Readable (t : ThmapPostings) : Prop where
  storable : ∀ {l c}, t.posting l = some c → c.Storable
  hot : ∀ l ∈ t.hotLabels, t.posting l ≠ none
  stored : ∀ {k val}, t.mergeset k = some val →
    ∃ ids, MergeSetPostings.decode val = some ids ∧ ∀ x ∈ ids, x < 2 ^ 64

theorem readable_empty : empty.Readable where
  storable h := by cases h
  hot _ h := by cases h
  stored h := by cases h

theorem Readable.readFromMergeset_eq (h : t.Readable) (l : Label) :
    t.readFromMergeset l = .ok (t.storedIds (key l)) := by
  cases hval : t.mergeset (key l) with
  | none => simp only [readFromMergeset, storedIds, hval, Option.bind_none, Option.getD_none]
  | some val =>
    obtain ⟨ids, hdecode, -⟩ := h.stored hval
    simp only [readFromMergeset, storedIds, hval, hdecode, Option.bind_some, Option.getD_some]

theorem Readable.storedIds_lt (h : t.Readable) {k : List Byte} :
    ∀ x ∈ t.storedIds k, x < 2 ^ 64 := by
  cases hval : t.mergeset k with
  | none =>
    intro x hx
    simp [storedIds, hval] at hx
  | some val =>
    obtain ⟨ids, hdecode, hids⟩ := h.stored hval
    simpa only [storedIds, hval, hdecode, Option.bind_some, Option.getD_some] using hids

theorem Readable.getAndRead_eq (h : t.Readable) (l : Label) :
    ∃ found ids, t.getAndRead l = .ok (found, ids) ∧ {x | x ∈ ids} = t.spilled.read key l := by
  cases hname : t.keyMap l.label with
  | none =>
    refine ⟨false, [], by simp only [getAndRead, hname]; rfl, ?_⟩
    have hunknown : l.label ∉ t.spilled.known := fun hknown => mem_known.1 hknown hname
    rw [Spill.read_of_unknown key hunknown]
    simp
  | some values =>
    have hknown : l.label ∈ t.spilled.known := mem_known.2 (by simp [hname])
    cases hvalue : values l.value with
    | some c =>
      have hc : t.posting l = some c := by simp [posting, hname, hvalue]
      refine ⟨true, c.postingList.listing, by simp only [getAndRead, hname, hvalue]; rfl, ?_⟩
      rw [(h.storable hc).blocked.listing_eq]
      exact (Spill.read_of_mem key (mem_spilled_of_posting hc)).symm
    | none =>
      have hc : t.posting l = none := by simp [posting, hname, hvalue]
      refine ⟨!(t.storedIds (key l)).isEmpty, t.storedIds (key l), ?_, ?_⟩
      · simp only [getAndRead, hname, hvalue, h.readFromMergeset_eq]
        rfl
      · exact (Spill.read_of_disk key (mem_spilled_eq_none.2 hc) hknown).symm

/-! ## New lists -/

section SetPosting

variable (t : ThmapPostings) (l : Label) (c : ConcurrencyPostingList)

theorem posting_setPosting : (t.setPosting l c).posting = update t.posting l (some c) := by
  funext l'
  by_cases hl : l' = l
  · simp [hl, posting, setPosting]
  · rw [update_of_ne hl]
    simp only [posting, setPosting, update_apply]
    by_cases hname : l'.label = l.label
    · have hvalue : l'.value ≠ l.value := by
        intro hvalue
        cases l
        cases l'
        simp_all
      rw [if_pos hname, hname]
      cases t.keyMap l.label <;> simp [update_of_ne hvalue]
    · rw [if_neg hname]

theorem keyMap_setPosting_ne_none {name : List Byte} :
    (t.setPosting l c).keyMap name ≠ none ↔ name = l.label ∨ t.keyMap name ≠ none := by
  simp only [setPosting, update_apply]
  by_cases hname : name = l.label
  · simp [hname]
  · simp [hname]

theorem spilled_setPosting (xs : Set ℕ) (hxs : {x | x ∈ c.postingList.ids} = xs) :
    (t.setPosting l c).spilled.mem = update t.spilled.mem l (some xs) ∧
      (t.setPosting l c).spilled.disk = t.spilled.disk ∧
      (t.setPosting l c).spilled.known = insert l.label t.spilled.known := by
  refine ⟨?_, rfl, ?_⟩
  · funext l'
    simp only [spilled, posting_setPosting, update_apply]
    split
    · rw [Option.map_some, hxs]
    · rfl
  · ext name
    exact keyMap_setPosting_ne_none t l c

theorem spilled_setPosting_insert {x : ℕ}
    (hx : ∀ y, y ∈ c.postingList.ids ↔ y = x ∨ ∃ c₀, t.posting l = some c₀ ∧ y ∈ c₀.postingList.ids) :
    (t.setPosting l c).spilled = t.spilled.insert l x := by
  have hlist : {y | y ∈ c.postingList.ids} = insert x ((t.spilled.mem l).getD ∅) := by
    ext y
    refine (hx y).trans (or_congr_right ?_)
    cases hl : t.posting l with
    | none => simp [mem_spilled_eq_none.2 hl]
    | some c₀ => simp [mem_spilled_of_posting hl]
  obtain ⟨hmem, hdisk, hknown⟩ := spilled_setPosting t l c _ hlist
  ext1
  · exact hmem
  · exact hdisk
  · exact hknown

end SetPosting

theorem spilled_congr (hkey : t'.keyMap = t.keyMap) (hstore : t'.mergeset = t.mergeset) :
    t'.spilled = t.spilled := by
  cases t
  cases t'
  cases hkey
  cases hstore
  rfl

theorem newPosting_eq_ok (h : t.newPosting l c = .ok t') :
    t' = { t.setPosting l c with hotQueue := t.hotQueue ++ [l], labelNum := t.labelNum + 1 } := by
  obtain ⟨t₁, hpush, hrest⟩ := bind_eq_ok h
  cases hrest
  rw [pushHot] at hpush
  split at hpush
  · cases hpush
    rfl
  · cases hpush

theorem Readable.setPosting (h : t.Readable) (l : Label) (hc : c.Storable) :
    (t.setPosting l c).Readable where
  storable {l' c'} hl' := by
    rw [posting_setPosting, update_apply] at hl'
    split at hl'
    · cases hl'
      exact hc
    · exact h.storable hl'
  hot l' hl' := by
    rw [posting_setPosting, update_apply]
    split
    · exact Option.some_ne_none c
    · exact h.hot l' hl'
  stored := h.stored

theorem Readable.newPosting (h : t.Readable) (hc : c.Storable) (hok : t.newPosting l c = .ok t') :
    t'.Readable := by
  have hset := h.setPosting l hc
  rw [newPosting_eq_ok hok]
  refine ⟨hset.storable, fun l' hl' => ?_, hset.stored⟩
  rw [hotLabels, ← append_assoc, mem_append, mem_singleton] at hl'
  rcases hl' with hl' | rfl
  · exact hset.hot l' hl'
  · change (t.setPosting l' c).posting l' ≠ none
    rw [posting_setPosting, update_self]
    exact Option.some_ne_none c

/-! ## Lookups -/

theorem get_of_posting (h : t.posting l = some c) : t.get l = .ok (some c, t) := by
  obtain ⟨values, hname, hvalue⟩ := Option.bind_eq_some_iff.1 h
  simp only [get, hname, hvalue]
  rfl

theorem Readable.get_cases (h : t.Readable) {r : Option ConcurrencyPostingList}
    (hok : t.get l = .ok (r, t')) :
    t' = t ∨ t.posting l = none ∧ l.label ∈ t.spilled.known ∧ ∃ c, c.Storable ∧
      {x | x ∈ c.postingList.ids} = t.spilled.disk (key l) ∧ t.newPosting l c = .ok t' := by
  cases hname : t.keyMap l.label with
  | none =>
    simp only [ThmapPostings.get, hname] at hok
    cases hok
    exact Or.inl rfl
  | some values =>
    cases hvalue : values l.value with
    | some c =>
      simp only [ThmapPostings.get, hname, hvalue] at hok
      cases hok
      exact Or.inl rfl
    | none =>
      simp only [ThmapPostings.get, hname, hvalue, h.readFromMergeset_eq] at hok
      obtain ⟨ids, hids, hok⟩ := bind_eq_ok hok
      cases hids
      split at hok
      · cases hok
        exact Or.inl rfl
      · obtain ⟨c, hfold, hok⟩ := bind_eq_ok hok
        obtain ⟨t₁, hnew, hok⟩ := bind_eq_ok hok
        cases hok
        obtain ⟨hc, hmem⟩ :=
          ConcurrencyPostingList.storable_empty.foldlM_insert h.storedIds_lt hfold
        have hlist : {x | x ∈ c.postingList.ids} = t.spilled.disk (key l) := by
          ext x
          exact (hmem x).trans (or_iff_left not_mem_nil)
        exact Or.inr ⟨by simp [posting, hname, hvalue], mem_known.2 (by simp [hname]), c, hc,
          hlist, hnew⟩

theorem Readable.get (h : t.Readable) {r : Option ConcurrencyPostingList}
    (hok : t.get l = .ok (r, t')) :
    t' = t ∨ t'.Readable ∧ t.posting l = none ∧
      ∃ hname : l.label ∈ t.spilled.known, t'.spilled = t.spilled.load key l hname := by
  rcases h.get_cases hok with rfl | ⟨hl, hknown, c, hc, hlist, hnew⟩
  · exact Or.inl rfl
  · obtain ⟨hm, hd, hk⟩ := spilled_setPosting t l c _ hlist
    refine Or.inr ⟨h.newPosting hc hnew, hl, hknown, ?_⟩
    rw [newPosting_eq_ok hnew]
    refine (spilled_congr rfl rfl : _ = (t.setPosting l c).spilled).trans ?_
    ext1
    · exact hm
    · exact hd
    · exact hk.trans (Set.insert_eq_of_mem hknown)

def hotOf (t : ThmapPostings) (l : Label) : BitVec 32 :=
  ((t.posting l).map ConcurrencyPostingList.hotValue).getD 0

theorem hotValue_of_posting (h : t.posting l ≠ none) : t.hotValue l = .ok (t.hotOf l, t) := by
  obtain ⟨c, hc⟩ := Option.ne_none_iff_exists'.1 h
  simp only [hotValue, get_of_posting hc, hotOf, hc, Option.map_some, Option.getD_some]
  rfl

theorem drainLoop_eq {fuel : ℕ} (hfuel : t.hotQueue.length < fuel)
    (hhot : ∀ l ∈ t.hotQueue, t.posting l ≠ none) :
    drainLoop fuel t = .ok { t with
      hotQueue := []
      hotList := t.hotList ++ t.hotQueue.map fun l => (l, t.hotOf l) } := by
  induction fuel generalizing t with
  | zero => exact absurd hfuel (Nat.not_lt_zero _)
  | succ fuel ih =>
    rw [drainLoop]
    cases hqueue : t.hotQueue with
    | nil =>
      cases t
      cases hqueue
      simp
      rfl
    | cons l queue =>
      rw [hqueue, forall_mem_cons] at hhot
      rw [hqueue, length_cons] at hfuel
      have hvalue : ({ t with hotQueue := queue } : ThmapPostings).hotValue l =
          .ok (t.hotOf l, { t with hotQueue := queue }) := hotValue_of_posting hhot.1
      have hrest := ih (t := { t with
        hotQueue := queue, hotList := t.hotList ++ [(l, t.hotOf l)] })
        (Nat.lt_of_succ_lt_succ hfuel) hhot.2
      simp only [hvalue, bind, Except.bind]
      refine hrest.trans ?_
      simp only [map_cons, append_assoc, singleton_append]
      rfl

theorem Readable.drainQueue_eq (h : t.Readable) :
    t.drainQueue = .ok { t with
      hotQueue := []
      hotList := t.hotList ++ t.hotQueue.map fun l => (l, t.hotOf l) } :=
  drainLoop_eq (by omega) fun l hl => h.hot l (mem_append_right _ hl)

theorem refreshLoop_eq {hots : List (Label × BitVec 32)} (hhot : ∀ p ∈ hots, t.posting p.1 ≠ none) :
    refreshLoop hots t = .ok ((hots.map Prod.fst).map fun l => (l, t.hotOf l), t) := by
  induction hots with
  | nil => rfl
  | cons p hots ih =>
    rw [forall_mem_cons] at hhot
    simp only [refreshLoop, hotValue_of_posting hhot.1, ih hhot.2, bind, Except.bind]
    rfl

/-! ## Adding -/

theorem Readable.drained {t₁ : ThmapPostings} (h : t.Readable) (hok : t.drainIfLong = .ok t₁) :
    t₁.Readable ∧ t₁.keyMap = t.keyMap ∧ t₁.mergeset = t.mergeset := by
  rw [drainIfLong] at hok
  split at hok
  · rw [h.drainQueue_eq] at hok
    cases hok
    refine ⟨⟨h.storable, fun l hl => h.hot l ?_, h.stored⟩, rfl, rfl⟩
    simpa [hotLabels] using hl
  · cases hok
    exact ⟨h, rfl, rfl⟩

theorem Readable.add (h : t.Readable) {id : Word} (hok : t.add id l = .ok t') :
    t'.Readable ∧ t'.spilled = t.spilled.insert l id.toNat := by
  obtain ⟨t₁, hdrain, hok⟩ := bind_eq_ok hok
  obtain ⟨h₁, hkey, hstore⟩ := h.drained hdrain
  rw [← spilled_congr hkey hstore]
  cases hl : t₁.posting l with
  | some c =>
    simp only [hl] at hok
    obtain ⟨c', hinsert, hok⟩ := bind_eq_ok hok
    cases hok
    obtain ⟨hc', hmem⟩ := (h₁.storable hl).insert id.isLt hinsert
    refine ⟨h₁.setPosting l hc', spilled_setPosting_insert t₁ l c' fun y => ?_⟩
    simp [hmem, hl]
  | none =>
    simp only [hl] at hok
    obtain ⟨c', hinsert, hok⟩ := bind_eq_ok hok
    obtain ⟨hc', hmem⟩ := ConcurrencyPostingList.storable_empty.insert id.isLt hinsert
    refine ⟨h₁.newPosting hc' hok, ?_⟩
    rw [newPosting_eq_ok hok]
    refine (spilled_congr rfl rfl : _ = (t₁.setPosting l c').spilled).trans ?_
    refine spilled_setPosting_insert t₁ l c' fun y => ?_
    simp [hmem, hl, ConcurrencyPostingList.empty, PrefixPostingsV2.ids_empty]

/-! ## Migrating -/

theorem Readable.addMergeSet (h : t.Readable) (hl : t.posting l ≠ none) :
    ∃ val, t.addMergeSet l =
        .ok { t with mergeset := update t.mergeset (key l) (some val) } ∧
      ({ t with mergeset := update t.mergeset (key l) (some val) } :
        ThmapPostings).Readable ∧
      ({ t with mergeset := update t.mergeset (key l) (some val) } :
        ThmapPostings).spilled.disk =
        update t.spilled.disk (key l) ((t.spilled.mem l).getD ∅) := by
  obtain ⟨c, hc⟩ := Option.ne_none_iff_exists'.1 hl
  have hstorable := h.storable hc
  have hdecode := MergeSetPostings.decode_encode hstorable.blocked hstorable.num_lt
    hstorable.id_lt
  refine ⟨MergeSetPostings.encode c.postingList, ?_, ⟨h.storable, h.hot, fun {k val} hk => ?_⟩, ?_⟩
  · simp only [ThmapPostings.addMergeSet, get_of_posting hc]
    rfl
  · simp only [update_apply] at hk
    split at hk
    · cases hk
      exact ⟨_, hdecode, hstorable.id_lt⟩
    · exact h.stored hk
  · rw [mem_spilled_of_posting hc, Option.getD_some]
    funext k
    simp only [spilled, storedIds, update_apply]
    split
    · rw [Option.bind_some, hdecode, Option.getD_some]
    · rfl

theorem Readable.foldlM_addMergeSet {batch : List Label} (h : t.Readable)
    (hbatch : ∀ l ∈ batch, t.posting l ≠ none)
    (hok : batch.foldlM ThmapPostings.addMergeSet t = .ok t') :
    t'.Readable ∧ t' = { t with mergeset := t'.mergeset } ∧
      t'.spilled.disk = Spill.spillDisk key t.spilled.mem t.spilled.disk batch := by
  induction batch generalizing t with
  | nil =>
    cases hok
    exact ⟨h, rfl, rfl⟩
  | cons l batch ih =>
    rw [forall_mem_cons] at hbatch
    rw [foldlM_cons] at hok
    obtain ⟨val, hadd, h₁, hdisk⟩ := h.addMergeSet hbatch.1
    rw [hadd] at hok
    obtain ⟨h', hsame, hdisk'⟩ := ih h₁ hbatch.2 hok
    refine ⟨h', hsame, hdisk'.trans ?_⟩
    rw [hdisk]
    rfl

theorem delPosting_eq_ok (hok : t.delPosting l = .ok t') :
    t' = { t with keyMap := t'.keyMap } ∧ t'.posting = update t.posting l none ∧
      ∀ name, t'.keyMap name ≠ none ↔ t.keyMap name ≠ none := by
  rw [delPosting] at hok
  cases hname : t.keyMap l.label with
  | none =>
    rw [hname] at hok
    cases hok
  | some values =>
    rw [hname] at hok
    cases hok
    refine ⟨rfl, ?_, fun name => ?_⟩
    · funext l'
      by_cases hl : l' = l
      · simp [hl, posting]
      · rw [update_of_ne hl]
        simp only [posting, update_apply]
        by_cases hlabel : l'.label = l.label
        · have hvalue : l'.value ≠ l.value := by
            intro hvalue
            cases l
            cases l'
            simp_all
          rw [if_pos hlabel, hlabel, hname, Option.bind_some, Option.bind_some]
          exact update_of_ne hvalue _ _
        · rw [if_neg hlabel]
    · by_cases hlabel : name = l.label
      · simp [hlabel, hname]
      · simp [update_of_ne hlabel]

theorem foldlM_delPosting {batch : List Label} (hok : batch.foldlM delPosting t = .ok t') :
    t' = { t with keyMap := t'.keyMap } ∧
      (∀ l, t'.posting l = if l ∈ batch then none else t.posting l) ∧
      ∀ name, t'.keyMap name ≠ none ↔ t.keyMap name ≠ none := by
  induction batch generalizing t with
  | nil =>
    cases hok
    exact ⟨rfl, fun l => by simp, fun _ => Iff.rfl⟩
  | cons a batch ih =>
    rw [foldlM_cons] at hok
    obtain ⟨t₁, hdel, hok⟩ := bind_eq_ok hok
    obtain ⟨hsame₁, hpost₁, hknown₁⟩ := delPosting_eq_ok hdel
    obtain ⟨hsame, hpost, hknown⟩ := ih hok
    refine ⟨?_, fun l => ?_, fun name => (hknown name).trans (hknown₁ name)⟩
    · rw [hsame, hsame₁]
    · rw [hpost, hpost₁, update_apply]
      by_cases hl : l = a <;> simp [hl]

def batch (t : ThmapPostings) (order : HotSort) (percent : Percent) : List Label :=
  batchOf (order.sort (t.hotLabels.map fun l => (l, t.hotOf l))) (percent.batchSize t.labelNum)

theorem mem_hotLabels_of_mem_batch {order : HotSort} {percent : Percent}
    (hl : l ∈ t.batch order percent) : l ∈ t.hotLabels := by
  obtain ⟨p, hp, rfl⟩ := mem_map.1 hl
  have hmem := (order.perm _).mem_iff.1 (mem_of_mem_drop hp)
  obtain ⟨l, hhot, rfl⟩ := mem_map.1 hmem
  exact hhot

theorem Readable.drainQueue_refreshed (h : t.Readable) :
    ({ t with hotList := (t.hotList.map Prod.fst).map fun l => (l, t.hotOf l) } :
      ThmapPostings).drainQueue =
      .ok { t with hotQueue := [], hotList := t.hotLabels.map fun l => (l, t.hotOf l) } := by
  have hready : ({ t with hotList := (t.hotList.map Prod.fst).map fun l => (l, t.hotOf l) } :
      ThmapPostings).Readable := by
    refine ⟨h.storable, fun l hl => h.hot l ?_, h.stored⟩
    simpa [hotLabels] using hl
  rw [hready.drainQueue_eq, hotLabels, map_append]
  rfl

theorem Readable.migrate (h : t.Readable) {order : HotSort} {percent : Percent}
    (hok : t.migrate order percent = .ok t') :
    t'.Readable ∧ t'.spilled = t.spilled.spill key (t.batch order percent) ∧
      t'.hotLabels = [] := by
  have hlist : ∀ p ∈ t.hotList, t.posting p.1 ≠ none := fun p hp =>
    h.hot p.1 (mem_append_left _ (mem_map_of_mem hp))
  have hbatch : ∀ l ∈ t.batch order percent, t.posting l ≠ none := fun l hl =>
    h.hot l (mem_hotLabels_of_mem_batch hl)
  simp only [ThmapPostings.migrate, refreshLoop_eq hlist] at hok
  obtain ⟨x, hrefresh, hok⟩ := bind_eq_ok hok
  cases hrefresh
  obtain ⟨t₁, hdrain, hok⟩ := bind_eq_ok hok
  rw [h.drainQueue_refreshed] at hdrain
  cases hdrain
  split at hok
  · cases hok
  obtain ⟨t₂, hadd, hok⟩ := bind_eq_ok hok
  obtain ⟨t₃, hdel, hok⟩ := bind_eq_ok hok
  cases hok
  have h₁ : ({ t with hotQueue := [], hotList := t.hotLabels.map fun l => (l, t.hotOf l) } :
      ThmapPostings).Readable := by
    refine ⟨h.storable, fun l hl => h.hot l ?_, h.stored⟩
    simpa [hotLabels] using hl
  obtain ⟨h₂, hsame₂, hdisk⟩ := h₁.foldlM_addMergeSet hbatch hadd
  obtain ⟨hsame₃, hposting, hknown⟩ := foldlM_delPosting hdel
  have hposting₂ : t₂.posting = t.posting := by rw [hsame₂]; rfl
  have hhot : ({ t₃ with hotList := [] } : ThmapPostings).hotLabels = [] := by
    rw [hotLabels, hsame₃, hsame₂]
    rfl
  refine ⟨⟨fun {l c} hl => ?_, fun l hl => ?_, fun {k val} hk => ?_⟩, ?_, hhot⟩
  · change t₃.posting l = some c at hl
    rw [hposting] at hl
    split at hl
    · cases hl
    · exact h₂.storable hl
  · rw [hhot] at hl
    cases hl
  · change t₃.mergeset k = some val at hk
    rw [hsame₃] at hk
    exact h₂.stored hk
  · ext1
    · funext l
      change (t₃.posting l).map _ = _
      rw [hposting, hposting₂]
      exact apply_ite _ _ _ _
    · change t₃.spilled.disk = _
      have hdisk₃ : t₃.spilled.disk = t₂.spilled.disk := by rw [hsame₃]; rfl
      rw [hdisk₃, hdisk]
      rfl
    · ext name
      refine (hknown name).trans ?_
      rw [hsame₂]
      rfl

/-! ## Runs -/

structure Traced where
  index : ThmapPostings
  added : List (Label × ℕ)

namespace Traced

def recorded : Op → List (Label × ℕ)
  | .add id l => [(l, id.toNat)]
  | _ => []

def step (order : HotSort) (t : Traced) (op : Op) : Except Fault Traced := do
  let index ← t.index.step order op
  pure { index := index, added := t.added ++ recorded op }

def empty : Traced where
  index := .empty
  added := []

def addedIds (t : Traced) (l : Label) : List ℕ :=
  (t.added.filter fun p => p.1 == l).map Prod.snd

variable {t : Traced} {l : Label}

theorem mem_addedIds {x : ℕ} : x ∈ t.addedIds l ↔ (l, x) ∈ t.added := by
  simp [addedIds]

/-- `get_and_read` lists exactly the ids added under the label, for every label. -/
def Exact (t : Traced) : Prop :=
  ∀ l, ∃ found ids, t.index.getAndRead l = .ok (found, ids) ∧ ∀ x, x ∈ ids ↔ (l, x) ∈ t.added

def clashing (l : Label) : List Label :=
  (List.range ((key l).length + 1)).map fun i => ⟨(key l).take i, (key l).drop i⟩

theorem mem_clashing {l' : Label} : l' ∈ clashing l ↔ key l' = key l := by
  simp only [clashing, mem_map, mem_range]
  constructor
  · rintro ⟨i, -, rfl⟩
    exact take_append_drop i (key l)
  · intro h
    refine ⟨l'.label.length, ?_, ?_⟩
    · rw [← h, key, length_append]
      omega
    · rw [← h, key, take_left, drop_left]

def Allowed (order : HotSort) (t : Traced) : Op → Prop
  | .add id l =>
    (t.index.posting l ≠ none ∨ ∀ x ∈ t.addedIds l, x = id.toNat) ∧
    (t.index.keyMap l.label ≠ none ∨
      ∀ value ≠ l.value, t.index.storedIds (l.label ++ value) = [])
  | .migrate percent =>
    ∀ l ∈ t.index.batch order percent, ∀ l' ∈ clashing l, t.index.keyMap l'.label ≠ none →
      t.index.posting l' = none ∨ l' ∈ t.index.batch order percent →
      t.addedIds l' ⊆ t.addedIds l ∧ t.addedIds l ⊆ t.addedIds l'
  | _ => True

def Reads (t : Traced) : Prop :=
  ∀ l, t.index.spilled.read key l = {x | x ∈ t.addedIds l}

theorem exact_iff_reads (h : t.index.Readable) : t.Exact ↔ t.Reads := by
  refine forall_congr' fun l => ?_
  obtain ⟨found, ids, hread, hids⟩ := h.getAndRead_eq l
  simp only [hread, ← hids, Set.ext_iff, mem_addedIds]
  constructor
  · rintro ⟨found', ids', hok, hmem⟩
    cases hok
    exact hmem
  · intro hmem
    exact ⟨found, ids, rfl, hmem⟩

theorem Reads.disk_eq (h : t.Reads) (hl : t.index.posting l = none)
    (hname : t.index.keyMap l.label ≠ none) :
    t.index.spilled.disk (key l) = {x | x ∈ t.addedIds l} := by
  rw [← h l]
  exact (Spill.read_of_disk key (mem_spilled_eq_none.2 hl) hname).symm

theorem Reads.insertable_iff (h : t.Reads) (order : HotSort) (id : Word) (l : Label) :
    t.index.spilled.Insertable key l id.toNat ↔ t.Allowed order (.add id l) := by
  rw [Spill.Insertable, ne_eq, mem_spilled_eq_none, Allowed]
  by_cases hname : t.index.keyMap l.label = none
  · have hl : t.index.posting l = none := by
      by_contra hl
      exact keyMap_ne_none hl hname
    have hnone : ∀ x, x ∉ t.addedIds l := by
      intro x hx
      have hread := Set.ext_iff.1 (h l) x
      rw [Spill.read_of_unknown key fun hknown => mem_known.1 hknown hname] at hread
      exact hread.2 hx
    have hempty : ∀ k, t.index.spilled.disk k = ∅ ↔ t.index.storedIds k = [] := by
      intro k
      rw [Set.eq_empty_iff_forall_notMem, eq_nil_iff_forall_not_mem]
      exact Iff.rfl
    simp only [hl, not_true_eq_false, mem_known, ne_eq, hname, false_and, not_false_eq_true,
      true_and, false_or, hnone, IsEmpty.forall_iff, implies_true, hempty]
    constructor
    · intro hall value hvalue
      exact hall ⟨l.label, value⟩ rfl fun heq => hvalue (congrArg Label.value heq)
    · rintro hall ⟨name, value⟩ rfl hne
      exact hall value fun hvalue => hne (by rw [hvalue])
  · by_cases hl : t.index.posting l = none
    · simp only [hl, not_true_eq_false, mem_known, ne_eq, hname, not_false_eq_true, true_and,
        false_and, or_false, false_or, true_or, and_true, h.disk_eq hl hname]
      exact Iff.rfl
    · simp [hl, hname]

theorem Reads.spillable_iff (h : t.Reads) (order : HotSort) (percent : Percent) :
    t.index.spilled.Spillable key (t.index.batch order percent) ↔
      t.Allowed order (.migrate percent) := by
  refine forall₂_congr fun l hl => forall_congr' fun l' => ?_
  rw [mem_clashing, mem_known, mem_spilled_eq_none, h l, h l']
  refine imp_congr_right fun _ => imp_congr_right fun _ => imp_congr_right fun _ => ?_
  exact Set.Subset.antisymm_iff

theorem reads_step_iff {order : HotSort} {t' : Traced} (h : t.index.Readable) (hreads : t.Reads)
    {op : Op} (hstep : t.step order op = .ok t') :
    t'.index.Readable ∧ (t'.Reads ↔ t.Allowed order op) := by
  obtain ⟨index, hindex, hok⟩ := bind_eq_ok hstep
  cases hok
  cases op with
  | add id l =>
    obtain ⟨h', hspilled⟩ := h.add hindex
    refine ⟨h', ?_⟩
    rw [← hreads.insertable_iff order id l, ← Spill.read_insert_iff, Reads]
    simp only [hspilled]
    have hself : ∀ x, x ∈ addedIds ⟨index, t.added ++ [(l, id.toNat)]⟩ l ↔
        x = id.toNat ∨ x ∈ t.addedIds l := fun x => by simp [mem_addedIds, or_comm]
    have hother : ∀ l' ≠ l, ∀ x, x ∈ addedIds ⟨index, t.added ++ [(l, id.toNat)]⟩ l' ↔
        x ∈ t.addedIds l' := fun l' hl' x => by simp [mem_addedIds, hl']
    constructor
    · intro hall
      refine ⟨(hall l).trans ?_, fun l' hl' => (hall l').trans ?_⟩
      · rw [hreads l]
        exact Set.ext hself
      · rw [hreads l']
        exact Set.ext (hother l' hl')
    · rintro ⟨hl, hall⟩ l'
      by_cases hl' : l' = l
      · rw [hl', hl, hreads l]
        exact (Set.ext hself).symm
      · rw [hall l' hl', hreads l']
        exact (Set.ext (hother l' hl')).symm
  | get l =>
    obtain ⟨⟨r, index'⟩, hget, hrest⟩ := bind_eq_ok hindex
    cases hrest
    simp only [recorded, append_nil]
    rcases h.get hget with rfl | ⟨h', hl, hname, hspilled⟩
    · exact ⟨h, iff_of_true hreads trivial⟩
    · refine ⟨h', iff_of_true (fun l' => ?_) trivial⟩
      rw [hspilled, Spill.read_load key (mem_spilled_eq_none.2 hl) hname]
      exact hreads l'
  | getAndRead l =>
    obtain ⟨r, -, hrest⟩ := bind_eq_ok hindex
    cases hrest
    simp only [recorded, append_nil]
    exact ⟨h, iff_of_true hreads trivial⟩
  | migrate percent =>
    obtain ⟨h', hspilled, -⟩ := h.migrate hindex
    refine ⟨h', ?_⟩
    have hbatch : ∀ l ∈ t.index.batch order percent, t.index.spilled.mem l ≠ none :=
      fun l hl hnone => h.hot l (mem_hotLabels_of_mem_batch hl) (mem_spilled_eq_none.1 hnone)
    rw [← hreads.spillable_iff order percent, ← Spill.read_spill_iff key hbatch]
    simp only [recorded, append_nil, Reads, hspilled]
    refine forall_congr' fun l => ?_
    rw [hreads l]
    rfl

end Traced

end ThmapPostings

open ThmapPostings in
/-- In every run whose operations are all allowed `get_and_read` lists exactly the ids added
under the label, and from there an operation keeps this exactly if it is allowed. -/
theorem thmapPostings_exact_iff (order : HotSort) (t : Traced)
    (hrun : Run.Reaches (Traced.Allowed order) (Traced.step order) Traced.empty t) :
    t.Exact ∧ ∀ op t', t.step order op = .ok t' → (t'.Exact ↔ t.Allowed order op) := by
  have h : t.index.Readable ∧ t.Reads := by
    refine hrun.invariant (P := fun t => t.index.Readable ∧ t.Reads) ⟨readable_empty, ?_⟩ ?_
    · intro l
      rw [Spill.read_of_unknown key fun hknown => mem_known.1 hknown rfl]
      exact (Set.eq_empty_iff_forall_notMem.2 fun x hx => by cases hx).symm
    · intro s op s' hs hallowed hstep
      obtain ⟨hreadable, hiff⟩ := Traced.reads_step_iff hs.1 hs.2 hstep
      exact ⟨hreadable, hiff.2 hallowed⟩
  refine ⟨(Traced.exact_iff_reads h.1).2 h.2, fun op t' hstep => ?_⟩
  obtain ⟨hreadable, hiff⟩ := Traced.reads_step_iff h.1 h.2 hstep
  rw [Traced.exact_iff_reads hreadable, hiff]

/-- A stable `std::sort`. -/
def stableSort : HotSort where
  sort := List.insertionSort fun a b => b.2 ≤ a.2
  perm := perm_insertionSort _
  sorted l := by
    have : Std.Total fun a b : Label × BitVec 32 => b.2 ≤ a.2 := ⟨fun a b => BitVec.le_total b.2 a.2⟩
    have : IsTrans (Label × BitVec 32) fun a b => b.2 ≤ a.2 :=
      ⟨fun _ _ _ hab hbc => BitVec.le_trans hbc hab⟩
    exact pairwise_insertionSort _ l

def everyLabel : Percent where
  batchSize := id
  le _ := BitVec.le_refl _

namespace ThmapPostings.Traced

def AllowedInMemory (order : HotSort) (t : Traced) : Op → Prop
  | .add _ l => (t.index.posting l).isSome = true
  | op => t.Allowed order op

instance (order : HotSort) (t : Traced) (op : Op) : Decidable (t.AllowedInMemory order op) := by
  cases op <;> unfold AllowedInMemory <;> (try unfold Allowed) <;> infer_instance

theorem AllowedInMemory.allowed {order : HotSort} {t : Traced} {op : Op}
    (h : t.AllowedInMemory order op) : t.Allowed order op := by
  cases op with
  | add id l =>
    have hl : t.index.posting l ≠ none := Option.isSome_iff_ne_none.1 h
    exact ⟨Or.inl hl, Or.inl (keyMap_ne_none hl)⟩
  | get l => trivial
  | getAndRead l => trivial
  | migrate percent => exact h

end ThmapPostings.Traced

/-- The label `a="1"`. -/
def sampleLabel : Label := ⟨[97], [49]⟩

open ThmapPostings in
/-- A list is migrated, made again by `get`, and then gets a second id. -/
theorem thmapPostings_exact_loaded :
    ∃ t, Run.Reaches (Traced.Allowed stableSort) (Traced.step stableSort) Traced.empty t ∧
      t.added = [(sampleLabel, 1), (sampleLabel, 2)] ∧ t.Exact := by
  have hrun : ((Traced.step stableSort .empty (.add 1 sampleLabel)).toOption.bind fun t₁ =>
      exec (Traced.AllowedInMemory stableSort) (Traced.step stableSort) t₁
        [.migrate everyLabel, .get sampleLabel, .add 2 sampleLabel]).map Traced.added =
        some [(sampleLabel, 1), (sampleLabel, 2)] := by
    decide +kernel
  obtain ⟨t, hbind, hadded⟩ := Option.map_eq_some_iff.1 hrun
  obtain ⟨t₁, hfirst, hexec⟩ := Option.bind_eq_some_iff.1 hbind
  have hallowed : Traced.empty.Allowed stableSort (.add 1 sampleLabel) :=
    ⟨Or.inr fun x hx => absurd hx not_mem_nil, Or.inr fun value _ => rfl⟩
  have hreach := ((reaches_of_exec hexec).mono fun _ _ h => h.allowed).head
    ⟨_, hallowed, eq_ok_of_toOption hfirst⟩
  exact ⟨t, hreach, hadded, (thmapPostings_exact_iff stableSort t hreach).1⟩

open ThmapPostings in
/-- A list is migrated, and a second id added: the new list hides the one in the store. -/
theorem thmapPostings_hides :
    ∃ t, Run.Reaches (fun _ _ => True) (Traced.step stableSort) Traced.empty t ∧ ¬ t.Exact := by
  have hrun : (exec (fun _ _ => True) (Traced.step stableSort) Traced.empty
      [.add 1 sampleLabel, .migrate everyLabel, .add 2 sampleLabel]).map
      (fun t => ((t.index.getAndRead sampleLabel).toOption, t.added)) =
        some (some (true, [2]), [(sampleLabel, 1), (sampleLabel, 2)]) := by
    decide +kernel
  obtain ⟨t, hreach, hview⟩ := exists_reaches_of_exec hrun
  obtain ⟨hread, hadded⟩ := Prod.mk.inj hview
  refine ⟨t, hreach, fun h => ?_⟩
  obtain ⟨found, ids, hok, hids⟩ := h sampleLabel
  rw [eq_ok_of_toOption hread] at hok
  cases hok
  have hmem := (hids 1).2 (by simp [hadded])
  exact absurd hmem (by decide)

end PromTCS
