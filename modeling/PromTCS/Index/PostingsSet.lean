import Mathlib.Data.Finset.Sort
import PromTCS.Index.PostingsCursor

/-!
# A posting list as a set

`PrefixPostingsV2` with `insert`, `remove` and `reset`, and its counter `num`, compared with a set
of ids. It follows the set as long as four things do not happen: an insertion of an id whose
block would come before another block, since a new block is always put at the end; an insertion of
the id number `2 ^ 31`, which an `int` does not count; a removal of an id that is not there while
its block has a larger one, since `search_inside_block` returns the position of that one and it is
not looked at again; and a `reset` of a list that is not empty, since `num` is not reset.
-/

namespace PromTCS

open List PrefixPostingsV2

open PrefixPostingsV2 (prefixOf mem_ids)

namespace PrefixPostingsV2

variable (p : PrefixPostingsV2) (id : ℕ)

/-- The block of an id, as `std::lower_bound` finds it. -/
def Found : Prop :=
  p.lowerBound id < p.blockPrefixes.length ∧ p.blockPrefixes.getD (p.lowerBound id) 0 = prefixOf id

instance (p : PrefixPostingsV2) (id : ℕ) : Decidable (p.Found id) :=
  inferInstanceAs (Decidable (_ ∧ _))

/-- `insert(id)` returns before `++num`. -/
def IsDuplicate : Prop :=
  p.Found id ∧
    let block := p.blocks.getD (p.lowerBound id) []
    let idx := searchInsideBlock block (offsetOf id)
    idx ≠ block.length ∧ block.getD idx 0 = offsetOf id

instance (p : PrefixPostingsV2) (id : ℕ) : Decidable (p.IsDuplicate id) :=
  inferInstanceAs (Decidable (_ ∧ _ ∧ _))

def remove : Bool × PrefixPostingsV2 :=
  let b := p.lowerBound id
  if p.Found id then
    let block := p.blocks.getD b []
    let idx := searchInsideBlock block (offsetOf id)
    if idx < block.length then
      (true,
        if block.length = 1 then
          { p with blocks := p.blocks.eraseIdx b, blockPrefixes := p.blockPrefixes.eraseIdx b }
        else { p with blocks := p.blocks.set b (block.eraseIdx idx) })
    else (false, p)
  else (false, p)

def reset (_ : PrefixPostingsV2) : PrefixPostingsV2 :=
  { blocks := [], blockPrefixes := [], cursor := none }

end PrefixPostingsV2

/-- A posting list with `num`. -/
structure CountedPostings where
  list : PrefixPostingsV2
  num : BitVec 32

namespace CountedPostings

inductive Op
  | insert (id : ℕ)
  | remove (id : ℕ)
  | reset

def empty : CountedPostings := ⟨PrefixPostingsV2.empty, 0⟩

/-- A call, with what `remove` returns. -/
def step (s : CountedPostings) : Op → Option Bool × CountedPostings
  | .insert id => (none, ⟨s.list.insert id, if s.list.IsDuplicate id then s.num else s.num + 1⟩)
  | .remove id =>
    (some (s.list.remove id).1,
      ⟨(s.list.remove id).2, if (s.list.remove id).1 then s.num - 1 else s.num⟩)
  | .reset => (none, ⟨s.list.reset, s.num⟩)

/-- `num` as a `size_t`. -/
def size (s : CountedPostings) : ℕ := (s.num.signExtend 64).toNat

def setStep (ids : Finset ℕ) : Op → Option Bool × Finset ℕ
  | .insert id => (none, insert id ids)
  | .remove id => (some (decide (id ∈ ids)), ids.erase id)
  | .reset => (none, ∅)

/-- A loop from a reset cursor reads the ids in ascending order, and `size()` is their number. -/
structure Agrees (s : CountedPostings) (ids : Finset ℕ) : Prop where
  read : ∀ fuel, ids.card < fuel →
    cursorOps.readLoop fuel s.list.resetCursor = ids.sort
  size : s.size = ids.card

/-- The list agrees with the set before and after every call, and every `remove` returns whether
the id was there. -/
def Follows : CountedPostings → Finset ℕ → List Op → Prop
  | s, ids, [] => s.Agrees ids
  | s, ids, op :: ops =>
    s.Agrees ids ∧ (s.step op).1 = (setStep ids op).1 ∧
      Follows (s.step op).2 (setStep ids op).2 ops

/-- An insertion puts no block behind that of a larger id. -/
def KeepsOrder (ids : Finset ℕ) (id : ℕ) : Prop :=
  (∃ x ∈ ids, prefixOf x = prefixOf id) ∨ ∀ x ∈ ids, prefixOf x < prefixOf id

/-- The calls that keep the order of the blocks, do not meet another id, and do not lose `num`. -/
def Kept (ids : Finset ℕ) : Op → Prop
  | .insert id => KeepsOrder ids id ∧ (insert id ids).card < 2 ^ 31
  | .remove id =>
    id ∈ ids ∨ ∀ x ∈ ids, prefixOf x = prefixOf id → x < id
  | .reset => ids = ∅

def AllKept : Finset ℕ → List Op → Prop
  | _, [] => True
  | ids, op :: ops => Kept ids op ∧ AllKept (setStep ids op).2 ops

end CountedPostings

/-! ## Removal -/

namespace PrefixPostingsV2

theorem mem_append_iff {l l' : List ℕ} {x y : ℕ} (h : (l ++ y :: l').Pairwise (· < ·)) :
    x ∈ l ++ l' ↔ x ≠ y ∧ x ∈ l ++ y :: l' := by
  obtain ⟨-, hcons, hlt⟩ := pairwise_append.1 h
  simp only [mem_append, mem_cons]
  constructor
  · rintro (hx | hx)
    · exact ⟨Nat.ne_of_lt (hlt x hx y mem_cons_self), Or.inl hx⟩
    · exact ⟨Nat.ne_of_gt ((pairwise_cons.1 hcons).1 x hx), Or.inr (Or.inr hx)⟩
  · rintro ⟨hne, hx | rfl | hx⟩
    · exact Or.inl hx
    · exact absurd rfl hne
    · exact Or.inr hx

theorem SplitAt.mem_iff {block : List ℕ} (hasc : block.Pairwise (· < ·)) {value r : ℕ}
    (h : SplitAt block value r) :
    value ∈ block ↔ r < block.length ∧ block.getD r 0 = value := by
  constructor
  · intro hmem
    obtain ⟨i, hi, rfl⟩ := mem_iff_getElem.1 hmem
    have hge : r ≤ i := by
      by_contra hlt
      have := h.lt i (Nat.lt_of_not_le hlt)
      rw [getD_eq_getElem _ _ hi] at this
      exact Nat.lt_irrefl _ this
    have hle := h.le r (Nat.le_refl r) (Nat.lt_of_le_of_lt hge hi)
    have hle' := getD_le_getD hasc hge hi
    rw [getD_eq_getElem _ _ hi] at hle'
    exact ⟨Nat.lt_of_le_of_lt hge hi, Nat.le_antisymm hle' hle⟩
  · rintro ⟨hlt, rfl⟩
    rw [getD_eq_getElem _ _ hlt]
    exact getElem_mem hlt

section

variable {p : PrefixPostingsV2} (h : p.Valid) {id : ℕ}

include h

theorem Valid.found_iff : p.Found id ↔ ∃ e ∈ p.entries, e.1 = prefixOf id := by
  constructor
  · intro hfound
    obtain ⟨-, pre, e, post, hsplit, heq, -⟩ := h.blocked.entries_insert_found hfound
    exact ⟨e, hsplit ▸ mem_append_cons_self, heq⟩
  · rintro ⟨e, he, heq⟩
    by_contra hfound
    have hlt := h.lt_of_not_found (Or.inl ⟨e, he, heq⟩) hfound e he
    exact Nat.lt_irrefl _ (heq ▸ hlt)

theorem Valid.exists_block (hfound : p.Found id) :
    ∃ pre e post, p.entries = pre ++ e :: post ∧ e.1 = prefixOf id ∧
      p.lowerBound id = pre.length ∧ p.blocks.getD (p.lowerBound id) [] = e.2 := by
  obtain ⟨hlt, hprefix⟩ := hfound
  rw [h.blocked.length_blockPrefixes] at hlt
  have hsplit : p.entries = p.entries.take (p.lowerBound id) ++
      p.entries[p.lowerBound id] :: p.entries.drop (p.lowerBound id + 1) := by
    rw [← drop_eq_getElem_cons hlt, take_append_drop]
  have hlen : (p.entries.take (p.lowerBound id)).length = p.lowerBound id := by
    rw [length_take, Nat.min_eq_left (Nat.le_of_lt hlt)]
  refine ⟨_, _, _, hsplit, ?_, hlen.symm, ?_⟩
  · rw [← h.blocked.getD_blockPrefixes hsplit, hlen, hprefix]
  · rw [← h.blocked.getD_blocks hsplit, hlen]

theorem Valid.mem_ids_iff {pre post : List (ℕ × List ℕ)} {e : ℕ × List ℕ}
    (hsplit : p.entries = pre ++ e :: post) (heq : e.1 = prefixOf id) :
    id ∈ p.ids ↔ offsetOf id ∈ e.2 := by
  have he : e ∈ p.entries := hsplit ▸ mem_append_cons_self
  constructor
  · intro hid
    obtain ⟨e', he', o, ho, rfl⟩ := mem_ids.1 hid
    have hnodup : (p.entries.map Prod.fst).Nodup :=
      pairwise_map.2 (h.entries_pairwise.imp Nat.ne_of_lt)
    rw [(h.blocks e' he').prefixOf_add ho] at heq
    rw [inj_on_of_nodup_map hnodup he he' heq, (h.blocks e' he').offsetOf_add ho]
    exact ho
  · intro ho
    exact mem_ids.2 ⟨e, he, offsetOf id, ho, by rw [heq, prefixOf_add_offsetOf]⟩

theorem Valid.found_of_mem {x : ℕ} (hx : x ∈ p.ids) (heq : prefixOf x = prefixOf id) :
    p.Found id := by
  obtain ⟨e, he, o, ho, rfl⟩ := mem_ids.1 hx
  exact h.found_iff.2 ⟨e, he, by rw [← heq, (h.blocks e he).prefixOf_add ho]⟩

theorem Valid.isDuplicate_iff : p.IsDuplicate id ↔ id ∈ p.ids := by
  by_cases hfound : p.Found id
  · obtain ⟨pre, e, post, hsplit, heq, -, hblock⟩ := h.exists_block hfound
    have hasc := (h.blocked.block hsplit).ascending
    have hpos := splitAt_searchInsideBlock hasc (offsetOf id)
    rw [h.mem_ids_iff hsplit heq, hpos.mem_iff hasc, IsDuplicate, hblock]
    have hne : searchInsideBlock e.2 (offsetOf id) ≠ e.2.length ↔
        searchInsideBlock e.2 (offsetOf id) < e.2.length :=
      ⟨fun hne => Nat.lt_of_le_of_ne hpos.le_length hne, Nat.ne_of_lt⟩
    simp only [hfound, true_and, hne]
  · exact iff_of_false (fun hdup => hfound hdup.1) fun hid => hfound (h.found_of_mem hid rfl)

theorem Valid.remove_of_mem (hid : id ∈ p.ids) :
    (p.remove id).1 = true ∧ ∃ pre a c post,
      p.entries = pre ++ (prefixOf id, a ++ offsetOf id :: c) :: post ∧
      (p.remove id).2.blocks.length = (p.remove id).2.blockPrefixes.length ∧
      (p.remove id).2.entries =
        pre ++ (if a ++ c = [] then [] else [(prefixOf id, a ++ c)]) ++ post := by
  have hfound := h.found_of_mem hid rfl
  obtain ⟨pre, e, post, hsplit, heq, hpre, hblock⟩ := h.exists_block hfound
  have hasc := (h.blocked.block hsplit).ascending
  have hpos := splitAt_searchInsideBlock hasc (offsetOf id)
  obtain ⟨hlt, hget⟩ := (hpos.mem_iff hasc).1 ((h.mem_ids_iff hsplit heq).1 hid)
  rw [hpre] at hblock
  simp only [remove, hpre, hblock, if_pos hfound]
  generalize searchInsideBlock e.2 (offsetOf id) = idx at hlt hget ⊢
  rw [getD_eq_getElem _ _ hlt] at hget
  obtain ⟨a, c, hac, rfl⟩ : ∃ a c, e.2 = a ++ offsetOf id :: c ∧ a.length = idx := by
    refine ⟨e.2.take idx, e.2.drop (idx + 1), ?_, ?_⟩
    · rw [← hget, ← drop_eq_getElem_cons hlt, take_append_drop]
    · rw [length_take, Nat.min_eq_left (Nat.le_of_lt hlt)]
  obtain rfl : e = (prefixOf id, a ++ offsetOf id :: c) := Prod.ext heq hac
  rw [if_pos hlt]
  refine ⟨rfl, pre, a, c, post, hsplit, ?_⟩
  have herase : (a ++ offsetOf id :: c).eraseIdx a.length = a ++ c := by
    rw [eraseIdx_append_of_length_le le_rfl, Nat.sub_self, eraseIdx_cons_zero]
  by_cases hone : (a ++ offsetOf id :: c).length = 1
  · have hnil : a ++ c = [] := by
      rw [append_eq_nil_iff, ← length_eq_zero_iff, ← length_eq_zero_iff]
      rw [length_append, length_cons] at hone
      omega
    rw [if_pos hone, if_pos hnil, append_nil]
    refine ⟨by simp [length_eraseIdx, h.length_eq], (zip_of_prod ?_ ?_).symm⟩
    · simp [h.blocked.blockPrefixes_eq, hsplit, eraseIdx_append_of_length_le]
    · simp [h.blocked.blocks_eq, hsplit, eraseIdx_append_of_length_le]
  · have hne : a ++ c ≠ [] := by
      intro hnil
      obtain ⟨rfl, rfl⟩ := append_eq_nil_iff.1 hnil
      exact hone rfl
    rw [if_neg hone, if_neg hne, herase]
    refine ⟨by simpa using h.length_eq, (zip_of_prod ?_ ?_).symm⟩
    · simp [h.blocked.blockPrefixes_eq, hsplit]
    · simp [h.blocked.blocks_eq, hsplit]

theorem Valid.remove_of_lt (hlt : ∀ x ∈ p.ids, prefixOf x = prefixOf id → x < id) :
    p.remove id = (false, p) := by
  by_cases hfound : p.Found id
  · obtain ⟨pre, e, post, hsplit, heq, -, hblock⟩ := h.exists_block hfound
    have hvalid := h.blocked.block hsplit
    have hpos := splitAt_searchInsideBlock hvalid.ascending (offsetOf id)
    simp only [remove, hblock, if_pos hfound]
    refine if_neg fun hidx => ?_
    have hmem := getElem_mem hidx
    have hle := hpos.le _ le_rfl hidx
    rw [getD_eq_getElem _ _ hidx] at hle
    have hx : e.1 + e.2[searchInsideBlock e.2 (offsetOf id)] ∈ p.ids :=
      mem_ids.2 ⟨e, hsplit ▸ mem_append_cons_self, _, hmem, rfl⟩
    have hlt' := hlt _ hx ((hvalid.prefixOf_add hmem).trans heq)
    have hid := prefixOf_add_offsetOf id
    omega
  · rw [remove, if_neg hfound]

theorem Valid.remove_of_not_lt {x : ℕ} (hx : x ∈ p.ids) (heq : prefixOf x = prefixOf id)
    (hlt : ¬ x < id) : (p.remove id).1 = true := by
  have hfound := h.found_of_mem hx heq
  obtain ⟨pre, e, post, hsplit, he, -, hblock⟩ := h.exists_block hfound
  have hvalid := h.blocked.block hsplit
  have hpos := splitAt_searchInsideBlock hvalid.ascending (offsetOf id)
  have ho := (h.mem_ids_iff hsplit (he.trans heq.symm)).1 hx
  simp only [remove, hblock, if_pos hfound]
  rw [if_pos]
  by_contra hidx
  have htake : offsetOf x < offsetOf id := by
    refine hpos.lt_of_mem_take ?_
    rwa [take_of_length_le (Nat.not_lt.1 hidx)]
  have hx' := prefixOf_add_offsetOf x
  have hid' := prefixOf_add_offsetOf id
  omega

theorem Valid.remove (hkept : id ∈ p.ids ∨ ∀ x ∈ p.ids, prefixOf x = prefixOf id → x < id) :
    (p.remove id).1 = decide (id ∈ p.ids) ∧ (p.remove id).2.Valid ∧
      ∀ x, x ∈ (p.remove id).2.ids ↔ x ≠ id ∧ x ∈ p.ids := by
  by_cases hid : id ∈ p.ids
  · obtain ⟨htrue, pre, a, c, post, hsplit, hlen, hentries⟩ := h.remove_of_mem hid
    have hvalid := h.blocked.block hsplit
    have hasc := pairwise_append.1 hvalid.ascending
    have hsub : (a ++ c).Sublist (a ++ offsetOf id :: c) :=
      List.Sublist.append_left (sublist_cons_self _ c) a
    have hblocked : (p.remove id).2.Blocked := by
      refine ⟨hlen, fun e he => ?_⟩
      rw [hentries, mem_append, mem_append] at he
      rcases he with (he | he) | he
      · exact h.blocks e (hsplit ▸ mem_append_left _ he)
      · split_ifs at he with hnil
        · exact absurd he not_mem_nil
        · rw [mem_singleton.1 he]
          exact ⟨hvalid.aligned, hnil, hvalid.ascending.sublist hsub,
            fun o ho => hvalid.offset_lt o (hsub.subset ho)⟩
      · exact h.blocks e (hsplit ▸ mem_append_right _ (mem_cons_of_mem _ he))
    refine ⟨by rw [htrue, decide_eq_true hid], ⟨hlen, ?_, hblocked.blocks⟩, fun x => ?_⟩
    · have hprefixes := h.prefixes
      rw [h.blocked.blockPrefixes_eq, hsplit] at hprefixes
      rw [hblocked.blockPrefixes_eq, hentries]
      refine hprefixes.sublist ?_
      split_ifs
      · simp
      · simp
    · have hids : p.ids = (pre.flatMap blockIds ++ a.map (prefixOf id + ·)) ++
          id :: (c.map (prefixOf id + ·) ++ post.flatMap blockIds) := by
        simp [ids, hsplit, blockIds, prefixOf_add_offsetOf]
      have hids' : (p.remove id).2.ids = (pre.flatMap blockIds ++ a.map (prefixOf id + ·)) ++
          (c.map (prefixOf id + ·) ++ post.flatMap blockIds) := by
        rw [ids, hentries]
        split_ifs with hnil
        · obtain ⟨rfl, rfl⟩ := append_eq_nil_iff.1 hnil
          simp
        · simp [blockIds]
      rw [hids', hids]
      exact mem_append_iff (hids ▸ h.ids_pairwise)
  · have hlt := hkept.resolve_left hid
    rw [h.remove_of_lt hlt]
    refine ⟨(decide_eq_false hid).symm, h, fun x => ⟨fun hx => ⟨?_, hx⟩, And.right⟩⟩
    rintro rfl
    exact hid hx

end

end PrefixPostingsV2

/-! ## Runs -/

namespace CountedPostings

structure Holds (s : CountedPostings) (ids : Finset ℕ) : Prop where
  valid : s.list.Valid
  mem_iff : ∀ x, x ∈ s.list.ids ↔ x ∈ ids
  num_eq : s.num = BitVec.ofNat 32 ids.card
  card_lt : ids.card < 2 ^ 31

theorem holds_empty : empty.Holds ∅ where
  valid := valid_empty
  mem_iff x := iff_of_false not_mem_nil (Finset.notMem_empty x)
  num_eq := rfl
  card_lt := by decide

theorem readLoop_resetCursor {p : PrefixPostingsV2} (h : p.Blocked) {fuel : ℕ}
    (hfuel : p.ids.length < fuel) :
    cursorOps.readLoop fuel p.resetCursor = p.ids :=
  walks_cursorOps.readLoop_fresh
    ⟨⟨h.length_eq, h.blocks⟩, rfl, rfl⟩ hfuel

variable {s : CountedPostings} {ids : Finset ℕ}

section

variable (h : s.Holds ids)
include h

theorem Holds.ids_eq : s.list.ids = ids.sort := by
  refine List.Pairwise.eq_of_mem_iff h.valid.ids_pairwise ids.sortedLT_sort.pairwise fun x => ?_
  rw [h.mem_iff, Finset.mem_sort]

theorem Holds.agrees : s.Agrees ids where
  read fuel hfuel := by
    rw [readLoop_resetCursor h.valid.blocked, h.ids_eq]
    rwa [h.ids_eq, Finset.length_sort]
  size := by
    have hlt := h.card_lt
    have hnat : (BitVec.ofNat 32 ids.card).toNat = ids.card := Nat.mod_eq_of_lt (by omega)
    have hmsb : (BitVec.ofNat 32 ids.card).msb = false :=
      BitVec.msb_eq_false_iff_two_mul_lt.mpr (by omega)
    rw [size, h.num_eq, BitVec.signExtend_eq_setWidth_of_msb_false hmsb, BitVec.toNat_setWidth,
      hnat, Nat.mod_eq_of_lt (by omega)]

theorem Holds.exists_entry_iff (P : ℕ → Prop) :
    (∃ e ∈ s.list.entries, P e.1) ↔ ∃ x ∈ ids, P (prefixOf x) := by
  constructor
  · rintro ⟨e, he, hP⟩
    obtain ⟨o, ho⟩ := exists_mem_of_ne_nil _ (h.valid.blocks e he).ne_nil
    refine ⟨e.1 + o, (h.mem_iff _).1 (mem_ids.2 ⟨e, he, o, ho, rfl⟩), ?_⟩
    rwa [(h.valid.blocks e he).prefixOf_add ho]
  · rintro ⟨x, hx, hP⟩
    obtain ⟨e, he, o, ho, rfl⟩ := mem_ids.1 ((h.mem_iff x).2 hx)
    exact ⟨e, he, (h.valid.blocks e he).prefixOf_add ho ▸ hP⟩

theorem Holds.appendable_iff {id : ℕ} :
    s.list.Appendable id ↔ KeepsOrder ids id := by
  have hlt := not_congr (h.exists_entry_iff fun y => ¬ y < prefixOf id)
  push Not at hlt
  exact or_congr (h.exists_entry_iff fun y => y = prefixOf id)
    (by simpa only [not_lt, not_le] using hlt)

theorem Holds.num_insert (id : ℕ) :
    (s.step (.insert id)).2.num = BitVec.ofNat 32 (insert id ids).card := by
  have hdup := h.valid.isDuplicate_iff.trans (h.mem_iff id)
  simp only [CountedPostings.step]
  split_ifs with hid
  · rw [Finset.insert_eq_of_mem (hdup.1 hid), h.num_eq]
  · rw [Finset.card_insert_of_notMem (fun hin => hid (hdup.2 hin)), h.num_eq, BitVec.ofNat_add]
    rfl

theorem Holds.step {op : Op} (hkept : Kept ids op) :
    (s.step op).1 = (setStep ids op).1 ∧ (s.step op).2.Holds (setStep ids op).2 := by
  cases op with
  | insert id =>
    obtain ⟨hvalid, hmem⟩ := h.valid.insert (h.appendable_iff.2 hkept.1)
    refine ⟨rfl, hvalid, fun x => ?_, h.num_insert id, hkept.2⟩
    change x ∈ (s.list.insert id).ids ↔ x ∈ insert id ids
    rw [hmem, h.mem_iff, Finset.mem_insert]
  | remove id =>
    have hkept' : id ∈ s.list.ids ∨ ∀ x ∈ s.list.ids,
        prefixOf x = prefixOf id → x < id := by
      simpa only [h.mem_iff, Kept] using hkept
    obtain ⟨hres, hvalid, hmem⟩ := h.valid.remove hkept'
    simp only [h.mem_iff] at hres hmem
    refine ⟨congrArg some hres, hvalid, fun x => ?_, ?_,
      (Finset.card_le_card (ids.erase_subset id)).trans_lt h.card_lt⟩
    · change x ∈ (s.list.remove id).2.ids ↔ x ∈ ids.erase id
      rw [hmem, Finset.mem_erase]
    · change (if (s.list.remove id).1 then s.num - 1 else s.num) =
        BitVec.ofNat 32 (ids.erase id).card
      rw [hres]
      by_cases hid : id ∈ ids
      · rw [if_pos (decide_eq_true hid), h.num_eq, ← Finset.card_erase_add_one hid,
          BitVec.ofNat_add]
        exact BitVec.add_sub_cancel _ _
      · rw [if_neg (by simpa using hid), Finset.erase_eq_of_notMem hid, h.num_eq]
  | reset =>
    obtain rfl : ids = ∅ := hkept
    exact ⟨rfl, valid_empty, holds_empty.mem_iff, h.num_eq, h.card_lt⟩

theorem Holds.keepsOrder_of_agrees {id : ℕ}
    (hagrees : (s.step (.insert id)).2.Agrees (insert id ids)) : KeepsOrder ids id := by
  refine h.appendable_iff.1 ?_
  by_contra happ
  obtain ⟨hnone, hnot⟩ := not_or.1 happ
  push Not at hnot
  obtain ⟨e, he, hle⟩ := hnot
  have hfound : ¬ s.list.Found id := fun hf => hnone (h.valid.found_iff.1 hf)
  obtain ⟨-, hentries⟩ := h.valid.blocked.entries_insert_push hfound
  have hids : (s.list.insert id).ids = s.list.ids ++ [id] := by
    simp [PrefixPostingsV2.ids, hentries, PrefixPostingsV2.blockIds,
      PrefixPostingsV2.prefixOf_add_offsetOf]
  -- the new block is behind the block `e`, whose ids are larger
  have hread := hagrees.read (max ((insert id ids).card + 1)
    ((s.list.insert id).ids.length + 1)) (lt_max_of_lt_left (Nat.lt_succ_self _))
  rw [CountedPostings.step, readLoop_resetCursor (h.valid.blocked.insert id).1
    (lt_max_of_lt_right (Nat.lt_succ_self _)), hids] at hread
  have hasc := (insert id ids).sortedLT_sort.pairwise
  rw [← hread, pairwise_append] at hasc
  obtain ⟨o, ho⟩ := exists_mem_of_ne_nil _ (h.valid.blocks e he).ne_nil
  have hx : e.1 + o ∈ s.list.ids := PrefixPostingsV2.mem_ids.2 ⟨e, he, o, ho, rfl⟩
  have hlt := hasc.2.2 _ hx id (mem_singleton_self id)
  have hpre := PrefixPostingsV2.prefixOf_mono (Nat.le_of_lt hlt)
  rw [(h.valid.blocks e he).prefixOf_add ho] at hpre
  exact hnone ⟨e, he, Nat.le_antisymm hpre hle⟩

theorem Holds.not_agrees {op : Op} (hkept : ¬ Kept ids op) :
    ¬ ((s.step op).1 = (setStep ids op).1 ∧ (s.step op).2.Agrees (setStep ids op).2) := by
  rintro ⟨hres, hagrees⟩
  cases op with
  | insert id =>
    refine hkept ⟨h.keepsOrder_of_agrees hagrees, ?_⟩
    by_contra hge
    -- the number of ids is `2 ^ 31`, and `num` is negative
    have hcard : (insert id ids).card = 2 ^ 31 := by
      have hle := Finset.card_insert_le id ids
      have hlt := h.card_lt
      omega
    have hsize := hagrees.size
    rw [size, h.num_insert id, setStep, hcard] at hsize
    exact absurd hsize (by decide)
  | remove id =>
    obtain ⟨hid, hlt⟩ := not_or.1 hkept
    push Not at hlt
    obtain ⟨x, hx, heq, hle⟩ := hlt
    have htrue := h.valid.remove_of_not_lt ((h.mem_iff x).2 hx) heq (Nat.not_lt.2 hle)
    have hfalse : (s.list.remove id).1 = decide (id ∈ ids) := Option.some.inj hres
    rw [htrue, decide_eq_false hid] at hfalse
    cases hfalse
  | reset =>
    have hsize := hagrees.size
    rw [setStep, Finset.card_empty] at hsize
    exact hkept (Finset.card_eq_zero.1 (h.agrees.size.symm.trans hsize))

end

theorem Follows.agrees {ops : List Op} (h : s.Follows ids ops) : s.Agrees ids := by
  cases ops with
  | nil => exact h
  | cons op ops => exact h.1

theorem Holds.follows_iff (h : s.Holds ids) (ops : List Op) :
    s.Follows ids ops ↔ AllKept ids ops := by
  induction ops generalizing s ids with
  | nil => exact iff_of_true h.agrees trivial
  | cons op ops ih =>
    by_cases hkept : Kept ids op
    · obtain ⟨hres, hholds⟩ := h.step hkept
      rw [Follows, AllKept, ih hholds]
      exact ⟨fun hf => ⟨hkept, hf.2.2⟩, fun hf => ⟨h.agrees, hres, hf.2⟩⟩
    · refine iff_of_false (fun hf => ?_) fun hf => hkept hf.1
      exact h.not_agrees hkept ⟨hf.2.1, hf.2.2.agrees⟩

/-- From an empty list on, the posting list follows the set exactly as long as every call keeps
it. -/
theorem postingsSet_follows_iff (ops : List Op) : empty.Follows ∅ ops ↔ AllKept ∅ ops :=
  holds_empty.follows_iff ops

/-- The id 1 comes behind the id 65536; the id 2 is taken out instead of 1; and `size()` of the
list after `reset` is 1. -/
theorem postingsSet_departs :
    ¬ empty.Follows ∅ [.insert 65536, .insert 1] ∧ ¬ empty.Follows ∅ [.insert 2, .remove 1] ∧
      ¬ empty.Follows ∅ [.insert 1, .reset] := by
  refine ⟨fun h => ?_, fun h => absurd h.2.2.2.1 (by decide), fun h =>
    absurd h.2.2.2.2.size (by decide)⟩
  have hread := h.2.2.2.2.read 3 (by decide)
  have hsorted := Finset.pairwise_sort (setStep (setStep ∅ (.insert 65536)).2 (.insert 1)).2 (· ≤ ·)
  rw [← hread] at hsorted
  exact absurd hsorted (by decide)

end CountedPostings

end PromTCS
