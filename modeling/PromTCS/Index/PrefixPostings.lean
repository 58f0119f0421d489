import Mathlib.Algebra.Ring.Nat
import Mathlib.Data.List.GetD
import PromTCS.Lib.Cursor

/-!
# Posting lists

`PrefixPostingsV2` keeps ids in blocks: the ids of a block share all but their last
sixteen bits, and these are kept in a table of prefixes beside the blocks. A cursor
walks over the blocks.
-/

namespace PromTCS

open List

/-- The cursor is `none` before the first call of `next` or `seek`, where `cur_block`
is -1. -/
structure PrefixPostingsV2 where
  blocks : List (List ℕ)
  blockPrefixes : List ℕ
  cursor : Option (ℕ × ℕ)
deriving DecidableEq, Repr

namespace PrefixPostingsV2

def empty : PrefixPostingsV2 where
  blocks := []
  blockPrefixes := []
  cursor := none

/-- `id & 0xffffffffffff0000`. -/
def prefixOf (id : ℕ) : ℕ := id / 65536 * 65536

/-- `id & 0x000000000000ffff`. -/
def offsetOf (id : ℕ) : ℕ := id % 65536

/-- The loop of `search_inside_block`; `count` gets smaller in every round. -/
def searchLoop (block : List ℕ) (value : ℕ) : ℕ → ℕ → ℕ → ℕ
  | 0, first, _ => first
  | fuel + 1, first, count =>
    if 0 < count then
      let step := count / 2
      if block.getD (first + step) 0 < value then
        searchLoop block value fuel (first + step + 1) (count - (step + 1))
      else searchLoop block value fuel first step
    else first

def searchInsideBlock (block : List ℕ) (value : ℕ) : ℕ :=
  searchLoop block value block.length 0 block.length

variable (p : PrefixPostingsV2)

/-- `std::lower_bound` over the prefixes, with the same rounds as the search inside a
block; the prefixes need not be in order. -/
def lowerBound (id : ℕ) : ℕ :=
  searchInsideBlock p.blockPrefixes (prefixOf id)

def pushBlock (id : ℕ) : PrefixPostingsV2 :=
  { p with
    blocks := p.blocks ++ [[offsetOf id]]
    blockPrefixes := p.blockPrefixes ++ [prefixOf id] }

def insert (id : ℕ) : PrefixPostingsV2 :=
  let b := p.lowerBound id
  if b < p.blockPrefixes.length ∧ p.blockPrefixes.getD b 0 = prefixOf id then
    let block := p.blocks.getD b []
    let idx := searchInsideBlock block (offsetOf id)
    if idx = block.length then { p with blocks := p.blocks.set b (block ++ [offsetOf id]) }
    else if block.getD idx 0 = offsetOf id then p
    else { p with blocks := p.blocks.set b (block.insertIdx idx (offsetOf id)) }
  else p.pushBlock id

def resetCursor : PrefixPostingsV2 :=
  { p with cursor := none }

/-- `num`, the number of ids in the blocks. -/
def num : ℕ := (p.blocks.map List.length).sum

/-- The common start of `next` and `seek`: the cursor goes to the first id. -/
def start : Bool × PrefixPostingsV2 :=
  (!p.blocks.isEmpty, { p with cursor := some (0, 0) })

def next : Bool × PrefixPostingsV2 :=
  match p.cursor with
  | none => p.start
  | some (b, idx) =>
    if idx + 1 = (p.blocks.getD b []).length then
      if b + 1 = p.blocks.length then (false, { p with cursor := some (b, idx + 1) })
      else (true, { p with cursor := some (b + 1, 0) })
    else (true, { p with cursor := some (b, idx + 1) })

def at' : ℕ :=
  match p.cursor with
  | none => 0
  | some (b, idx) => p.blockPrefixes.getD b 0 + (p.blocks.getD b []).getD idx 0

def seek (val : ℕ) : Bool × PrefixPostingsV2 :=
  match p.cursor with
  | none => p.start
  | some _ =>
    if val ≤ p.at' then (true, p)
    else
      let b := p.lowerBound val
      if b = p.blockPrefixes.length then (false, p)
      else if p.blockPrefixes.getD b 0 = prefixOf val then
        let block := p.blocks.getD b []
        let idx := searchInsideBlock block (offsetOf val)
        if idx = block.length then
          (decide (b + 1 < p.blocks.length), { p with cursor := some (b + 1, 0) })
        else (true, { p with cursor := some (b, idx) })
      else (true, { p with cursor := some (b, 0) })

def cursorOps : Cursor PrefixPostingsV2 where
  next := next
  seek := seek
  at' := at'

/-! ## The search inside a block -/

/-- The offsets before `r` are below the value, the others are not. -/
structure SplitAt (block : List ℕ) (value r : ℕ) : Prop where
  le_length : r ≤ block.length
  lt : ∀ i < r, block.getD i 0 < value
  le : ∀ i, r ≤ i → i < block.length → value ≤ block.getD i 0

theorem getD_le_getD {block : List ℕ} (hasc : block.Pairwise (· < ·)) {i j : ℕ} (hij : i ≤ j)
    (hj : j < block.length) : block.getD i 0 ≤ block.getD j 0 := by
  rcases Nat.eq_or_lt_of_le hij with rfl | hlt
  · exact Nat.le_refl _
  · rw [getD_eq_getElem _ _ hj, getD_eq_getElem _ _ (Nat.lt_trans hlt hj)]
    exact Nat.le_of_lt (pairwise_iff_getElem.1 hasc i j _ hj hlt)

theorem searchLoop_spec {block : List ℕ} (hasc : block.Pairwise (· < ·)) {value : ℕ}
    {fuel first count : ℕ} (hfuel : count ≤ fuel) (hlen : first + count ≤ block.length)
    (hlt : ∀ i < first, block.getD i 0 < value)
    (hle : ∀ i, first + count ≤ i → i < block.length → value ≤ block.getD i 0) :
    SplitAt block value (searchLoop block value fuel first count) := by
  induction fuel generalizing first count with
  | zero =>
    obtain rfl : count = 0 := Nat.le_zero.1 hfuel
    exact ⟨hlen, hlt, hle⟩
  | succ fuel ih =>
    rw [searchLoop]
    by_cases hpos : 0 < count
    · have hstep : count / 2 < count := Nat.div_lt_self hpos (by decide)
      rw [if_pos hpos]
      by_cases hmid : block.getD (first + count / 2) 0 < value
      · rw [if_pos hmid]
        refine ih (by omega) (by omega) (fun i hi => ?_) (fun i hi => hle i (by omega))
        exact Nat.lt_of_le_of_lt (getD_le_getD hasc (Nat.le_of_lt_succ hi) (by omega)) hmid
      · rw [if_neg hmid]
        refine ih (by omega) (by omega) hlt (fun i hi hi' => ?_)
        exact Nat.le_trans (Nat.not_lt.1 hmid) (getD_le_getD hasc hi hi')
    · obtain rfl : count = 0 := Nat.eq_zero_of_not_pos hpos
      rw [if_neg hpos]
      exact ⟨hlen, hlt, hle⟩

theorem splitAt_searchInsideBlock {block : List ℕ} (hasc : block.Pairwise (· < ·)) (value : ℕ) :
    SplitAt block value (searchInsideBlock block value) :=
  searchLoop_spec hasc (Nat.le_refl _) (Nat.le_of_eq (Nat.zero_add _))
    (fun i hi => absurd hi (Nat.not_lt_zero i))
    (fun i hi hi' => absurd hi' (by rw [Nat.zero_add] at hi; exact Nat.not_lt.2 hi))

theorem SplitAt.lt_of_mem_take {block : List ℕ} {value r x : ℕ} (h : SplitAt block value r)
    (hx : x ∈ block.take r) : x < value := by
  obtain ⟨i, hi, rfl⟩ := mem_iff_getElem.1 hx
  rw [length_take] at hi
  rw [getElem_take, ← getD_eq_getElem _ 0]
  exact h.lt i (by omega)

theorem SplitAt.le_of_mem_drop {block : List ℕ} {value r x : ℕ} (h : SplitAt block value r)
    (hx : x ∈ block.drop r) : value ≤ x := by
  obtain ⟨i, hi, rfl⟩ := mem_iff_getElem.1 hx
  rw [length_drop] at hi
  rw [getElem_drop, ← getD_eq_getElem _ 0]
  exact h.le (r + i) (Nat.le_add_right _ _) (by omega)

/-! ## The ids of a posting list -/

def entries : List (ℕ × List ℕ) := p.blockPrefixes.zip p.blocks

def blockIds (e : ℕ × List ℕ) : List ℕ := e.2.map (e.1 + ·)

def ids : List ℕ := p.entries.flatMap blockIds

structure ValidBlock (e : ℕ × List ℕ) : Prop where
  aligned : 65536 ∣ e.1
  ne_nil : e.2 ≠ []
  ascending : e.2.Pairwise (· < ·)
  offset_lt : ∀ x ∈ e.2, x < 65536

structure Blocked (p : PrefixPostingsV2) : Prop where
  length_eq : p.blocks.length = p.blockPrefixes.length
  blocks : ∀ e ∈ p.entries, ValidBlock e

structure Valid (p : PrefixPostingsV2) : Prop where
  length_eq : p.blocks.length = p.blockPrefixes.length
  prefixes : p.blockPrefixes.Pairwise (· < ·)
  blocks : ∀ e ∈ p.entries, ValidBlock e

theorem Valid.blocked {p : PrefixPostingsV2} (h : p.Valid) : p.Blocked :=
  ⟨h.length_eq, h.blocks⟩

theorem valid_empty : empty.Valid where
  length_eq := rfl
  prefixes := .nil
  blocks e he := by cases he

theorem ids_empty : empty.ids = [] := rfl

theorem mem_ids {p : PrefixPostingsV2} {x : ℕ} :
    x ∈ p.ids ↔ ∃ e ∈ p.entries, ∃ o ∈ e.2, x = e.1 + o := by
  simp only [ids, mem_flatMap, blockIds, mem_map, eq_comm]

namespace ValidBlock

variable {e : ℕ × List ℕ} (h : ValidBlock e) {o : ℕ} (ho : o ∈ e.2)

include h ho

theorem prefixOf_add : prefixOf (e.1 + o) = e.1 := by
  obtain ⟨k, hk⟩ := h.aligned
  have := h.offset_lt o ho
  rw [prefixOf, hk]
  omega

theorem offsetOf_add : offsetOf (e.1 + o) = o := by
  obtain ⟨k, hk⟩ := h.aligned
  have := h.offset_lt o ho
  rw [offsetOf, hk]
  omega

end ValidBlock

theorem prefixOf_add_offsetOf (id : ℕ) : prefixOf id + offsetOf id = id :=
  Nat.div_add_mod' id 65536

theorem prefixOf_mono {x y : ℕ} (h : x ≤ y) : prefixOf x ≤ prefixOf y :=
  Nat.mul_le_mul_right 65536 (Nat.div_le_div_right h)

theorem lt_of_prefixOf_lt {x y : ℕ} (h : prefixOf x < prefixOf y) : x < y :=
  Nat.lt_of_not_le fun hle => absurd (prefixOf_mono hle) (Nat.not_le.2 h)

section Blocks

variable {p : PrefixPostingsV2} (h : p.Blocked)

include h

theorem Blocked.blockPrefixes_eq : p.blockPrefixes = p.entries.map Prod.fst :=
  (map_fst_zip (Nat.le_of_eq h.length_eq.symm)).symm

theorem Blocked.blocks_eq : p.blocks = p.entries.map Prod.snd :=
  (map_snd_zip (Nat.le_of_eq h.length_eq)).symm

theorem Blocked.length_blockPrefixes : p.blockPrefixes.length = p.entries.length := by
  rw [h.blockPrefixes_eq, length_map]

theorem Blocked.length_blocks : p.blocks.length = p.entries.length := by
  rw [h.blocks_eq, length_map]

theorem Blocked.length_ids : p.ids.length = p.num := by
  rw [ids, length_flatMap, num, h.blocks_eq, map_map]
  simp only [blockIds, length_map]
  rfl

variable {pre post : List (ℕ × List ℕ)} {e : ℕ × List ℕ} (hsplit : p.entries = pre ++ e :: post)

include hsplit

theorem Blocked.getD_blockPrefixes : p.blockPrefixes.getD pre.length 0 = e.1 := by
  simp [h.blockPrefixes_eq, hsplit]

theorem Blocked.getD_blocks : p.blocks.getD pre.length [] = e.2 := by
  simp [h.blocks_eq, hsplit]

theorem Blocked.block : ValidBlock e :=
  h.blocks e (hsplit ▸ mem_append_cons_self)

end Blocks

section Ascending

variable {p : PrefixPostingsV2} (h : p.Valid)

include h

theorem Valid.entries_pairwise : p.entries.Pairwise fun e e' => e.1 < e'.1 := by
  have hprefixes := h.prefixes
  rwa [h.blocked.blockPrefixes_eq, pairwise_map] at hprefixes

theorem Valid.ids_pairwise : p.ids.Pairwise (· < ·) := by
  rw [ids, pairwise_flatMap]
  constructor
  · intro e he
    rw [blockIds, pairwise_map]
    exact (h.blocks e he).ascending.imp fun hlt => Nat.add_lt_add_left hlt e.1
  · refine h.entries_pairwise.imp_of_mem fun {e e'} he he' hlt x hx y hy => ?_
    obtain ⟨o, ho, rfl⟩ := mem_map.1 hx
    obtain ⟨o', ho', rfl⟩ := mem_map.1 hy
    refine lt_of_prefixOf_lt ?_
    rwa [(h.blocks e he).prefixOf_add ho, (h.blocks e' he').prefixOf_add ho']

theorem Valid.lowerBound_cases (id : ℕ) :
    (p.lowerBound id = p.entries.length ∧ ∀ e ∈ p.entries, e.1 < prefixOf id) ∨
      ∃ pre e post, p.entries = pre ++ e :: post ∧ p.lowerBound id = pre.length ∧
        (∀ e' ∈ pre, e'.1 < prefixOf id) ∧ prefixOf id ≤ e.1 := by
  have hsplit := splitAt_searchInsideBlock h.prefixes (prefixOf id)
  rw [← lowerBound] at hsplit
  generalize p.lowerBound id = b at hsplit
  have hbefore : ∀ e ∈ p.entries.take b, e.1 < prefixOf id := by
    intro e he
    refine hsplit.lt_of_mem_take ?_
    rw [h.blocked.blockPrefixes_eq, ← map_take]
    exact mem_map_of_mem he
  have hle := hsplit.le_length
  rw [h.blocked.length_blockPrefixes] at hle
  rcases Nat.eq_or_lt_of_le hle with rfl | hlt
  · rw [take_length] at hbefore
    exact Or.inl ⟨rfl, hbefore⟩
  · have hentry : p.entries[b].1 ∈ p.blockPrefixes.drop b := by
      rw [h.blocked.blockPrefixes_eq, ← map_drop, drop_eq_getElem_cons hlt]
      exact mem_cons_self
    refine Or.inr ⟨p.entries.take b, p.entries[b], p.entries.drop (b + 1), ?_, ?_, hbefore,
      hsplit.le_of_mem_drop hentry⟩
    · rw [← drop_eq_getElem_cons hlt, take_append_drop]
    · rw [length_take, Nat.min_eq_left hle]

end Ascending

/-! ## Insertion -/

def insertOffset (block : List ℕ) (offset : ℕ) : List ℕ :=
  let idx := searchInsideBlock block offset
  if idx = block.length then block ++ [offset]
  else if block.getD idx 0 = offset then block
  else block.insertIdx idx offset

theorem set_getD_self (blocks : List (List ℕ)) (b : ℕ) :
    blocks.set b (blocks.getD b []) = blocks := by
  rcases Nat.lt_or_ge b blocks.length with hlt | hge
  · rw [getD_eq_getElem _ _ hlt, set_getElem_self]
  · exact set_eq_of_length_le hge

theorem insert_eq (id : ℕ) :
    p.insert id =
      if p.lowerBound id < p.blockPrefixes.length ∧
          p.blockPrefixes.getD (p.lowerBound id) 0 = prefixOf id then
        { p with
          blocks := p.blocks.set (p.lowerBound id)
            (insertOffset (p.blocks.getD (p.lowerBound id) []) (offsetOf id)) }
      else p.pushBlock id := by
  simp only [insert, insertOffset]
  split_ifs with hb hlen hmem
  · rfl
  · rw [set_getD_self]
  · rfl
  · rfl

theorem ValidBlock.put {e : ℕ × List ℕ} (h : ValidBlock e) {offset idx : ℕ} (hlt : offset < 65536)
    (hbefore : ∀ o ∈ e.2.take idx, o < offset) (hafter : ∀ o ∈ e.2.drop idx, offset < o) :
    ValidBlock (e.1, e.2.take idx ++ offset :: e.2.drop idx) where
  aligned := h.aligned
  ne_nil := append_ne_nil_of_right_ne_nil _ (cons_ne_nil _ _)
  ascending := by
    have hasc := h.ascending
    rw [← take_append_drop idx e.2, pairwise_append] at hasc
    rw [pairwise_append, pairwise_cons]
    refine ⟨hasc.1, ⟨hafter, hasc.2.1⟩, fun o ho => ?_⟩
    exact forall_mem_cons.2 ⟨hbefore o ho, hasc.2.2 o ho⟩
  offset_lt o ho := by
    rcases mem_append.1 ho with ho | ho
    · exact h.offset_lt o (mem_of_mem_take ho)
    · rcases mem_cons.1 ho with rfl | ho
      · exact hlt
      · exact h.offset_lt o (mem_of_mem_drop ho)

theorem insertIdx_eq_take_append (block : List ℕ) (idx offset : ℕ) (h : idx ≤ block.length) :
    block.insertIdx idx offset = block.take idx ++ offset :: block.drop idx := by
  induction block generalizing idx with
  | nil =>
    obtain rfl : idx = 0 := Nat.le_zero.1 h
    rfl
  | cons o block ih =>
    cases idx with
    | zero => rfl
    | succ idx => rw [insertIdx_succ_cons, ih idx (Nat.le_of_succ_le_succ h)]; rfl

theorem insertOffset_cases {block : List ℕ} (hasc : block.Pairwise (· < ·)) (offset : ℕ) :
    (offset ∈ block ∧ insertOffset block offset = block) ∨
      ∃ idx, (∀ o ∈ block.take idx, o < offset) ∧ (∀ o ∈ block.drop idx, offset < o) ∧
        insertOffset block offset = block.take idx ++ offset :: block.drop idx := by
  have hsplit := splitAt_searchInsideBlock hasc offset
  rw [insertOffset]
  generalize searchInsideBlock block offset = idx at hsplit
  by_cases hlen : idx = block.length
  · refine Or.inr ⟨idx, fun o => hsplit.lt_of_mem_take, ?_, ?_⟩
    · rw [hlen, drop_length]
      exact fun o ho => absurd ho not_mem_nil
    · simp [hlen]
  · have hidx : idx < block.length := Nat.lt_of_le_of_ne hsplit.le_length hlen
    have hget := getD_eq_getElem block 0 hidx
    simp only [if_neg hlen, hget]
    by_cases hmem : block[idx] = offset
    · rw [if_pos hmem]
      exact Or.inl ⟨hmem ▸ getElem_mem hidx, rfl⟩
    · have hdrop := drop_eq_getElem_cons hidx
      have hasc' : (block.drop idx).Pairwise (· < ·) := hasc.sublist (drop_sublist _ _)
      have hlt : offset < block[idx] :=
        Nat.lt_of_le_of_ne (hsplit.le_of_mem_drop (hdrop ▸ mem_cons_self)) (Ne.symm hmem)
      rw [hdrop, pairwise_cons] at hasc'
      refine Or.inr ⟨idx, fun o => hsplit.lt_of_mem_take, ?_, ?_⟩
      · rw [hdrop, forall_mem_cons]
        exact ⟨hlt, fun o ho => Nat.lt_trans hlt (hasc'.1 o ho)⟩
      · rw [if_neg hmem]
        exact insertIdx_eq_take_append _ _ _ (Nat.le_of_lt hidx)

theorem ValidBlock.insertOffset {e : ℕ × List ℕ} (h : ValidBlock e) {offset : ℕ}
    (hlt : offset < 65536) :
    ValidBlock (e.1, PrefixPostingsV2.insertOffset e.2 offset) ∧
      ∀ o, o ∈ PrefixPostingsV2.insertOffset e.2 offset ↔ o = offset ∨ o ∈ e.2 := by
  rcases insertOffset_cases h.ascending offset with ⟨hmem, heq⟩ | ⟨idx, hbefore, hafter, heq⟩
  · rw [heq]
    refine ⟨h, fun o => ⟨Or.inr, ?_⟩⟩
    rintro (rfl | ho)
    · exact hmem
    · exact ho
  · rw [heq]
    refine ⟨h.put hlt hbefore hafter, fun o => ?_⟩
    rw [mem_append, mem_cons, or_left_comm, ← mem_append, take_append_drop]

theorem Blocked.entries_insert_found {p : PrefixPostingsV2} (h : p.Blocked) {id : ℕ}
    (hfound : p.lowerBound id < p.blockPrefixes.length ∧
      p.blockPrefixes.getD (p.lowerBound id) 0 = prefixOf id) :
    (p.insert id).blockPrefixes = p.blockPrefixes ∧
      ∃ pre e post, p.entries = pre ++ e :: post ∧ e.1 = prefixOf id ∧
        (p.insert id).entries = pre ++ (e.1, insertOffset e.2 (offsetOf id)) :: post := by
  rw [insert_eq, if_pos hfound]
  obtain ⟨hlt, hprefix⟩ := hfound
  generalize p.lowerBound id = b at hlt hprefix
  rw [h.length_blockPrefixes] at hlt
  obtain ⟨pre, e, post, hsplit, rfl⟩ : ∃ pre e post, p.entries = pre ++ e :: post ∧
      pre.length = b := by
    refine ⟨p.entries.take b, p.entries[b], p.entries.drop (b + 1), ?_, ?_⟩
    · rw [← drop_eq_getElem_cons hlt, take_append_drop]
    · rw [length_take, Nat.min_eq_left (Nat.le_of_lt hlt)]
  refine ⟨rfl, pre, e, post, hsplit, (h.getD_blockPrefixes hsplit).symm.trans hprefix, ?_⟩
  rw [h.getD_blocks hsplit]
  refine (zip_of_prod ?_ ?_).symm
  · simp [h.blockPrefixes_eq, hsplit]
  · simp [h.blocks_eq, hsplit]

theorem Blocked.entries_insert_push {p : PrefixPostingsV2} (h : p.Blocked) {id : ℕ}
    (hfound : ¬ (p.lowerBound id < p.blockPrefixes.length ∧
      p.blockPrefixes.getD (p.lowerBound id) 0 = prefixOf id)) :
    (p.insert id).blockPrefixes = p.blockPrefixes ++ [prefixOf id] ∧
      (p.insert id).entries = p.entries ++ [(prefixOf id, [offsetOf id])] := by
  rw [insert_eq, if_neg hfound]
  refine ⟨rfl, ?_⟩
  simp [pushBlock, entries, zip_append h.length_eq.symm]

theorem length_blocks_insert {p : PrefixPostingsV2} (h : p.Blocked) (id : ℕ) :
    (p.insert id).blocks.length = (p.insert id).blockPrefixes.length := by
  rw [insert_eq]
  split
  · simpa using h.length_eq
  · simp [pushBlock, h.length_eq]

theorem Blocked.insert {p : PrefixPostingsV2} (h : p.Blocked) (id : ℕ) :
    (p.insert id).Blocked ∧ ∀ x, x ∈ (p.insert id).ids ↔ x = id ∨ x ∈ p.ids := by
  have hoffset : offsetOf id < 65536 := Nat.mod_lt _ (by decide)
  have hlen := length_blocks_insert h id
  by_cases hfound : p.lowerBound id < p.blockPrefixes.length ∧
      p.blockPrefixes.getD (p.lowerBound id) 0 = prefixOf id
  · obtain ⟨-, pre, e, post, hsplit, hpre_eq, hentries⟩ := h.entries_insert_found hfound
    obtain ⟨hblock, hmem⟩ := (h.block hsplit).insertOffset hoffset
    refine ⟨⟨hlen, fun e' he' => ?_⟩, fun x => ?_⟩
    · rw [hentries, mem_append, mem_cons] at he'
      rcases he' with he' | rfl | he'
      · exact h.blocks e' (by simp [hsplit, he'])
      · exact hblock
      · exact h.blocks e' (by simp [hsplit, he'])
    · have hnew : x ∈ blockIds (e.1, PrefixPostingsV2.insertOffset e.2 (offsetOf id)) ↔
          x = id ∨ x ∈ blockIds e := by
        have hid := prefixOf_add_offsetOf id
        rw [← hpre_eq] at hid
        simp only [blockIds, mem_map, hmem, or_and_right, exists_or, exists_eq_left, hid,
          eq_comm]
      simp only [ids, hentries, hsplit, flatMap_append, flatMap_cons, mem_append,
        hnew, or_left_comm, or_assoc]
  · have hblock : ValidBlock (prefixOf id, [offsetOf id]) :=
      ⟨Nat.dvd_mul_left _ _, cons_ne_nil _ _, pairwise_singleton _ _,
        forall_mem_singleton.2 hoffset⟩
    obtain ⟨-, hentries⟩ := h.entries_insert_push hfound
    refine ⟨⟨hlen, ?_⟩, fun x => ?_⟩
    · rw [hentries, forall_mem_append, forall_mem_singleton]
      exact ⟨h.blocks, hblock⟩
    · simp [ids, hentries, blockIds, prefixOf_add_offsetOf, or_comm]

def Appendable (id : ℕ) : Prop :=
  (∃ e ∈ p.entries, e.1 = prefixOf id) ∨ ∀ e ∈ p.entries, e.1 < prefixOf id

theorem Valid.lt_of_not_found {p : PrefixPostingsV2} (h : p.Valid) {id : ℕ}
    (happ : p.Appendable id)
    (hfound : ¬ (p.lowerBound id < p.blockPrefixes.length ∧
      p.blockPrefixes.getD (p.lowerBound id) 0 = prefixOf id)) :
    ∀ e ∈ p.entries, e.1 < prefixOf id := by
  rcases h.lowerBound_cases id with ⟨-, hall⟩ | ⟨pre, e, post, hsplit, hb, hpre, hle⟩
  · exact hall
  rcases happ with ⟨e', he', heq⟩ | hall
  · have hasc := h.entries_pairwise
    rw [hsplit, pairwise_append, pairwise_cons] at hasc
    have hpre_eq : e.1 = prefixOf id := by
      rw [hsplit, mem_append, mem_cons] at he'
      rcases he' with he' | rfl | he'
      · exact absurd heq (Nat.ne_of_lt (hpre e' he'))
      · exact heq
      · exact absurd (heq ▸ hasc.2.1.1 e' he') (Nat.not_lt.2 hle)
    refine absurd ⟨?_, ?_⟩ hfound
    · rw [hb, h.blocked.length_blockPrefixes, hsplit, length_append, length_cons]
      exact Nat.lt_add_of_pos_right (Nat.succ_pos _)
    · rw [hb, h.blocked.getD_blockPrefixes hsplit, hpre_eq]
  · exact hall

theorem Valid.insert {p : PrefixPostingsV2} (h : p.Valid) {id : ℕ} (happ : p.Appendable id) :
    (p.insert id).Valid ∧ ∀ x, x ∈ (p.insert id).ids ↔ x = id ∨ x ∈ p.ids := by
  obtain ⟨hblocked, hmem⟩ := h.blocked.insert id
  refine ⟨⟨hblocked.length_eq, ?_, hblocked.blocks⟩, hmem⟩
  by_cases hfound : p.lowerBound id < p.blockPrefixes.length ∧
      p.blockPrefixes.getD (p.lowerBound id) 0 = prefixOf id
  · rw [(h.blocked.entries_insert_found hfound).1]
    exact h.prefixes
  · rw [(h.blocked.entries_insert_push hfound).1, pairwise_append]
    refine ⟨h.prefixes, pairwise_singleton _ _, fun s hs => ?_⟩
    rw [h.blocked.blockPrefixes_eq] at hs
    obtain ⟨e, he, rfl⟩ := mem_map.1 hs
    exact forall_mem_singleton.2 (h.lt_of_not_found happ hfound e he)

theorem Valid.appendable {p : PrefixPostingsV2} (h : p.Valid) {id : ℕ}
    (hid : id ∈ p.ids ∨ ∀ x ∈ p.ids, x < id) : p.Appendable id := by
  rcases hid with hmem | hlt
  · obtain ⟨e, he, o, ho, rfl⟩ := mem_ids.1 hmem
    exact Or.inl ⟨e, he, ((h.blocks e he).prefixOf_add ho).symm⟩
  · by_cases hblock : ∃ e ∈ p.entries, e.1 = prefixOf id
    · exact Or.inl hblock
    · refine Or.inr fun e he => ?_
      obtain ⟨o, ho⟩ := exists_mem_of_ne_nil _ (h.blocks e he).ne_nil
      have hle := prefixOf_mono (Nat.le_of_lt (hlt _ (mem_ids.2 ⟨e, he, o, ho, rfl⟩)))
      rw [(h.blocks e he).prefixOf_add ho] at hle
      exact Nat.lt_of_le_of_ne hle fun heq => hblock ⟨e, he, heq⟩

end PrefixPostingsV2

end PromTCS
