import Mathlib.Data.List.Induction
import Mathlib.Data.List.Sort
import PromTCS.Index.PrefixPostings

/-!
# The cursor of a posting list

`next` and `seek` of `PrefixPostingsV2` walk over its ids in ascending order.
-/

namespace PromTCS

open List PrefixPostingsV2

namespace PrefixPostingsV2

/-- What is left of the ids from offset `idx` of a block on. -/
def rest (e : ℕ × List ℕ) (idx : ℕ) (post : List (ℕ × List ℕ)) : List ℕ :=
  (e.2.drop idx).map (e.1 + ·) ++ post.flatMap blockIds

structure Unread (p : PrefixPostingsV2) (l : List ℕ) : Prop where
  blocked : p.Blocked
  cursor : p.cursor = none
  ids_eq : p.ids = l

/-- The cursor is at the head of `l`, which is what is left of the ids. -/
inductive Pointing (p : PrefixPostingsV2) (l : List ℕ) : Prop
  | at (blocked : p.Blocked) (pre : List (ℕ × List ℕ)) (e : ℕ × List ℕ)
      (post : List (ℕ × List ℕ)) (idx : ℕ) (hsplit : p.entries = pre ++ e :: post)
      (hcursor : p.cursor = some (pre.length, idx)) (hidx : idx < e.2.length)
      (hl : l = rest e idx post)

section Move

variable {p : PrefixPostingsV2} (h : p.Blocked) {pre post : List (ℕ × List ℕ)} {e : ℕ × List ℕ}
  (hsplit : p.entries = pre ++ e :: post)

include h hsplit

theorem Blocked.pointing_offset {idx : ℕ} (hidx : idx < e.2.length) :
    Pointing { p with cursor := some (pre.length, idx) } (rest e idx post) :=
  .at ⟨h.length_eq, h.blocks⟩ pre e post idx hsplit rfl hidx rfl

theorem Blocked.pointing_block :
    Pointing { p with cursor := some (pre.length, 0) } ((e :: post).flatMap blockIds) :=
  h.pointing_offset hsplit (length_pos_of_ne_nil (h.block hsplit).ne_nil)

end Move

variable {e : ℕ × List ℕ} {idx x v : ℕ} {p : PrefixPostingsV2} {l : List ℕ}
  {pre post : List (ℕ × List ℕ)}

theorem rest_eq_cons (hidx : idx < e.2.length) (post : List (ℕ × List ℕ)) :
    rest e idx post = (e.1 + e.2.getD idx 0) :: rest e (idx + 1) post := by
  rw [rest, drop_eq_getElem_cons hidx, map_cons, cons_append,
    getD_eq_getElem _ _ hidx]
  rfl

theorem rest_ne_nil (hidx : idx < e.2.length) (post : List (ℕ × List ℕ)) :
    rest e idx post ≠ [] := by
  rw [rest_eq_cons hidx]
  exact cons_ne_nil _ _

theorem rest_length (e : ℕ × List ℕ) (post : List (ℕ × List ℕ)) :
    rest e e.2.length post = post.flatMap blockIds := by
  rw [rest, drop_length, map_nil, nil_append]

theorem Pointing.cursor_eq (h : Pointing p l) : ∃ q, p.cursor = some q := by
  obtain ⟨-, pre, -, -, idx, -, hcursor⟩ := h
  exact ⟨_, hcursor⟩

theorem Pointing.at_eq (h : Pointing p (x :: l)) : p.at' = x := by
  obtain ⟨blocked, pre, e, post, idx, hsplit, hcursor, hidx, hl⟩ := h
  rw [rest_eq_cons hidx] at hl
  simp only [at', hcursor, blocked.getD_blockPrefixes hsplit, blocked.getD_blocks hsplit]
  exact (List.cons.inj hl).1.symm

theorem Pointing.ne_nil (h : Pointing p l) : l ≠ [] := by
  obtain ⟨-, -, e, post, idx, -, -, hidx, rfl⟩ := h
  exact rest_ne_nil hidx post

/-- The result of a call that leaves `l`. -/
def Leaves (r : Bool × PrefixPostingsV2) (l : List ℕ) : Prop :=
  r.1 = !l.isEmpty ∧ (l ≠ [] → Pointing r.2 l)

theorem Pointing.leaves (h : Pointing p l) : Leaves (true, p) l :=
  ⟨by simp [h.ne_nil], fun _ => h⟩

theorem leaves_nil (p : PrefixPostingsV2) : Leaves (false, p) [] :=
  ⟨rfl, fun hne => absurd rfl hne⟩

theorem Blocked.leaves_block (h : p.Blocked) (hsplit : p.entries = pre ++ post) :
    Leaves (decide (pre.length < p.entries.length), { p with cursor := some (pre.length, 0) })
      (post.flatMap blockIds) := by
  cases post with
  | nil =>
    rw [hsplit, append_nil, decide_eq_false (Nat.lt_irrefl _)]
    exact leaves_nil _
  | cons e post =>
    have hlt : pre.length < p.entries.length := by
      rw [hsplit, length_append, length_cons]
      exact Nat.lt_add_of_pos_right (Nat.succ_pos _)
    rw [decide_eq_true hlt]
    exact (h.pointing_block hsplit).leaves

theorem Unread.next (h : Unread p l) : Leaves p.next l := by
  have hleaves := h.blocked.leaves_block (nil_append p.entries).symm
  rw [← ids, h.ids_eq, ← h.blocked.length_blocks] at hleaves
  have hnext : p.next = (decide (0 < p.blocks.length), { p with cursor := some (0, 0) }) := by
    simp only [PrefixPostingsV2.next, h.cursor, start]
    cases p.blocks <;> simp
  rwa [hnext]

theorem Pointing.next (h : Pointing p (x :: l)) : Leaves p.next l := by
  obtain ⟨blocked, pre, e, post, idx, hsplit, hcursor, hidx, hl⟩ := h
  rw [rest_eq_cons hidx] at hl
  obtain ⟨-, rfl⟩ := List.cons.inj hl
  simp only [PrefixPostingsV2.next, hcursor, blocked.getD_blocks hsplit, blocked.length_blocks]
  by_cases hlast : idx + 1 = e.2.length
  · have hsplit' : p.entries = (pre ++ [e]) ++ post := by
      rw [hsplit, append_assoc, singleton_append]
    have hleaves := blocked.leaves_block hsplit'
    rw [if_pos hlast, hlast, rest_length]
    rw [length_append, length_singleton] at hleaves
    by_cases hend : pre.length + 1 = p.entries.length
    · have hpost : post = [] := by
        rw [hsplit', length_append, length_append, length_singleton] at hend
        exact length_eq_zero_iff.1 (Nat.left_eq_add.1 hend)
      rw [if_pos hend, hpost]
      exact leaves_nil _
    · have hlt : pre.length + 1 < p.entries.length := by
        refine Nat.lt_of_le_of_ne ?_ hend
        rw [hsplit', length_append, length_append, length_singleton]
        exact Nat.le_add_right _ _
      rw [decide_eq_true hlt] at hleaves
      rwa [if_neg hend]
  · rw [if_neg hlast]
    exact (blocked.pointing_offset hsplit (Nat.lt_of_le_of_ne hidx hlast)).leaves

theorem walks_cursorOps : cursorOps.Walks Unread Pointing where
  next_fresh h := h.next
  next_here h := h.next
  at_here h := h.at_eq

/-! ## Seeking -/

structure Fresh (p : PrefixPostingsV2) (l : List ℕ) : Prop where
  valid : p.Valid
  cursor : p.cursor = none
  ids_eq : p.ids = l

def ofIds (l : List ℕ) : PrefixPostingsV2 := l.foldl insert empty

theorem cursor_insert (p : PrefixPostingsV2) (id : ℕ) : (p.insert id).cursor = p.cursor := by
  rw [insert_eq]
  split <;> rfl

theorem fresh_ofIds (h : l.Pairwise (· < ·)) : Fresh (ofIds l) l := by
  induction l using List.reverseRecOn with
  | nil => exact ⟨valid_empty, rfl, rfl⟩
  | append_singleton l id ih =>
    obtain ⟨hl, -, hlt⟩ := pairwise_append.1 h
    have hp := ih hl
    have hall : ∀ x ∈ (ofIds l).ids, x < id := by
      rw [hp.ids_eq]
      exact fun x hx => hlt x hx id (mem_singleton_self id)
    obtain ⟨hvalid, hmem⟩ := hp.valid.insert (hp.valid.appendable (Or.inr hall))
    have hinsert : ofIds (l ++ [id]) = (ofIds l).insert id := foldl_concat ..
    rw [hinsert]
    refine ⟨hvalid, (cursor_insert _ id).trans hp.cursor, ?_⟩
    refine List.Pairwise.eq_of_mem_iff hvalid.ids_pairwise h fun x => ?_
    rw [hmem, hp.ids_eq, mem_append, mem_singleton, or_comm]

/-- The cursor is at the head of `l`, in a list with its blocks in order. -/
structure Here (p : PrefixPostingsV2) (l : List ℕ) : Prop where
  valid : p.Valid
  pointing : Pointing p l

theorem ids_eq_append (hsplit : p.entries = pre ++ e :: post) (idx : ℕ) :
    p.ids = (pre.flatMap blockIds ++ (e.2.take idx).map (e.1 + ·)) ++ rest e idx post := by
  rw [ids, hsplit, flatMap_append, flatMap_cons, rest, append_assoc,
    ← append_assoc (List.map _ _), ← map_append, take_append_drop, blockIds]

theorem Here.dropWhile_ids (h : Here p (x :: l)) (hv : x < v) :
    p.ids.dropWhile (· < v) = (x :: l).dropWhile (· < v) := by
  have hasc := h.valid.ids_pairwise
  obtain ⟨-, pre, e, post, idx, hsplit, hcursor, hidx, hl⟩ := h.pointing
  rw [ids_eq_append hsplit idx, ← hl] at hasc ⊢
  refine dropWhile_append_of_pos fun y hy => decide_eq_true ?_
  exact Nat.lt_trans ((pairwise_append.1 hasc).2.2 y hy x mem_cons_self) hv

theorem ValidBlock.lt_of_mem (h : ValidBlock e) (hv : e.1 < prefixOf v) (hx : x ∈ blockIds e) :
    x < v := by
  obtain ⟨o, ho, rfl⟩ := mem_map.1 hx
  exact lt_of_prefixOf_lt (by rwa [h.prefixOf_add ho])

theorem ValidBlock.lt_of_prefix_lt (h : ValidBlock e) (hv : prefixOf v < e.1) (hx : x ∈ blockIds e) :
    v < x := by
  obtain ⟨o, ho, rfl⟩ := mem_map.1 hx
  exact lt_of_prefixOf_lt (by rwa [h.prefixOf_add ho])

theorem Valid.dropWhile_ids (h : p.Valid) (hsplit : p.entries = pre ++ e :: post)
    (hpre : ∀ e' ∈ pre, e'.1 < prefixOf v) (hle : prefixOf v ≤ e.1)
    (htake : ∀ o ∈ e.2.take idx, e.1 + o < v) (hdrop : ∀ o ∈ e.2.drop idx, v ≤ e.1 + o) :
    p.ids.dropWhile (· < v) = rest e idx post := by
  have hasc := h.entries_pairwise
  rw [hsplit, pairwise_append, pairwise_cons] at hasc
  rw [ids_eq_append hsplit idx]
  refine dropWhile_append_eq (forall_mem_append.2 ⟨fun x hx => ?_, ?_⟩)
    (forall_mem_append.2 ⟨?_, fun x hx => ?_⟩)
  · obtain ⟨e', he', hx⟩ := mem_flatMap.1 hx
    exact (h.blocks e' (by simp [hsplit, he'])).lt_of_mem (hpre e' he') hx
  · exact forall_mem_map.2 htake
  · exact forall_mem_map.2 hdrop
  · obtain ⟨e', he', hx⟩ := mem_flatMap.1 hx
    have hlt : prefixOf v < e'.1 := Nat.lt_of_le_of_lt hle (hasc.2.1.1 e' he')
    exact Nat.le_of_lt ((h.blocks e' (by simp [hsplit, he'])).lt_of_prefix_lt hlt hx)

theorem Valid.seek_block (h : p.Valid) (hsplit : p.entries = pre ++ e :: post)
    (hpre : ∀ e' ∈ pre, e'.1 < prefixOf v) (hle : prefixOf v ≤ e.1) :
    Leaves
      (if e.1 = prefixOf v then
        if searchInsideBlock e.2 (offsetOf v) = e.2.length then
          (decide (pre.length + 1 < p.entries.length),
            { p with cursor := some (pre.length + 1, 0) })
        else (true, { p with cursor := some (pre.length, searchInsideBlock e.2 (offsetOf v)) })
      else (true, { p with cursor := some (pre.length, 0) }))
      (p.ids.dropWhile (· < v)) := by
  have hblock := h.blocked.block hsplit
  by_cases hpre_eq : e.1 = prefixOf v
  · have hv : v = e.1 + offsetOf v := by rw [hpre_eq, prefixOf_add_offsetOf]
    have hpos := splitAt_searchInsideBlock hblock.ascending (offsetOf v)
    generalize searchInsideBlock e.2 (offsetOf v) = idx at hpos
    have hids := h.dropWhile_ids hsplit hpre hle
      (fun o ho => by rw [hv]; exact Nat.add_lt_add_left (hpos.lt_of_mem_take ho) e.1)
      (fun o ho => by rw [hv]; exact Nat.add_le_add_left (hpos.le_of_mem_drop ho) e.1)
    rw [if_pos hpre_eq, hids]
    by_cases hlen : idx = e.2.length
    · have hsplit' : p.entries = (pre ++ [e]) ++ post := by
        rw [hsplit, append_assoc, singleton_append]
      have hleaves := h.blocked.leaves_block hsplit'
      rw [length_append, length_singleton] at hleaves
      rwa [if_pos hlen, hlen, rest_length]
    · rw [if_neg hlen]
      exact (h.blocked.pointing_offset hsplit (Nat.lt_of_le_of_ne hpos.le_length hlen)).leaves
  · have hlt : prefixOf v < e.1 := Nat.lt_of_le_of_ne hle (Ne.symm hpre_eq)
    have hids := h.dropWhile_ids hsplit hpre hle
      (fun o (ho : o ∈ e.2.take 0) => absurd ho (by simp))
      (fun o ho => Nat.le_of_lt (hblock.lt_of_prefix_lt hlt (mem_map_of_mem ho)))
    rw [if_neg hpre_eq, hids]
    exact (h.blocked.pointing_block hsplit).leaves

theorem Here.leaves_seek (h : Here p l) (v : ℕ) : Leaves (p.seek v) (l.dropWhile (· < v)) := by
  cases l with
  | nil => exact absurd rfl h.pointing.ne_nil
  | cons x l =>
    have valid := h.valid
    obtain ⟨q, hcursor⟩ := h.pointing.cursor_eq
    simp only [seek, hcursor, h.pointing.at_eq]
    by_cases hx : v ≤ x
    · rw [if_pos hx, dropWhile_cons_of_neg (by simpa using hx)]
      exact h.pointing.leaves
    · rw [if_neg hx, ← h.dropWhile_ids (Nat.not_le.1 hx), valid.blocked.length_blockPrefixes]
      rcases valid.lowerBound_cases v with ⟨hb, hall⟩ | ⟨pre, e, post, hsplit, hb, hpre, hle⟩
      · have hids : p.ids.dropWhile (· < v) = [] := by
          rw [← append_nil p.ids]
          refine dropWhile_append_eq (fun y hy => ?_) fun y hy => absurd hy not_mem_nil
          obtain ⟨e, he, hy⟩ := mem_flatMap.1 hy
          exact (valid.blocks e he).lt_of_mem (hall e he) hy
        rw [if_pos hb, hids]
        exact leaves_nil p
      · have hne : pre.length ≠ p.entries.length := by
          rw [hsplit, length_append, length_cons]
          omega
        rw [hb, if_neg hne, valid.blocked.getD_blockPrefixes hsplit,
          valid.blocked.getD_blocks hsplit, valid.blocked.length_blocks]
        exact valid.seek_block hsplit hpre hle

theorem exists_cursor_next (p : PrefixPostingsV2) : ∃ c, p.next.2 = { p with cursor := c } := by
  simp only [PrefixPostingsV2.next, start]
  split <;> (try split_ifs) <;> exact ⟨_, rfl⟩

theorem exists_cursor_seek (p : PrefixPostingsV2) (v : ℕ) :
    ∃ c, (p.seek v).2 = { p with cursor := c } := by
  simp only [seek, start]
  split <;> (try split_ifs) <;> exact ⟨_, rfl⟩

theorem Valid.withCursor {q : PrefixPostingsV2} (h : p.Valid) (hq : ∃ c, q = { p with cursor := c }) :
    q.Valid := by
  obtain ⟨c, rfl⟩ := hq
  exact ⟨h.length_eq, h.prefixes, h.blocks⟩

theorem lawful_cursorOps : cursorOps.Lawful Fresh Here where
  next_fresh {p l} h := by
    have hunread : Unread p l := ⟨h.valid.blocked, h.cursor, h.ids_eq⟩
    exact ⟨hunread.next.1,
      fun hne => ⟨h.valid.withCursor (exists_cursor_next p), hunread.next.2 hne⟩⟩
  next_here {p x l} h :=
    ⟨h.pointing.next.1,
      fun hne => ⟨h.valid.withCursor (exists_cursor_next p), h.pointing.next.2 hne⟩⟩
  seek_here {p l} v h :=
    ⟨(h.leaves_seek v).1,
      fun hne => ⟨h.valid.withCursor (exists_cursor_seek p v), (h.leaves_seek v).2 hne⟩⟩
  at_here h := h.pointing.at_eq

/-! ## The contract of seek -/

def onId (p : PrefixPostingsV2) : Bool :=
  match p.cursor with
  | none => false
  | some (b, idx) => decide (b < p.blocks.length ∧ idx < (p.blocks.getD b []).length)

/-- `seek(val)`. With a cursor that is not at an id `at()` reads behind the end of a block or of
the table of blocks; `none` then. -/
def checkedSeek (p : PrefixPostingsV2) (val : ℕ) : Option (Bool × PrefixPostingsV2) :=
  if p.cursor.isNone || p.onId then some (p.seek val) else none

def left (p : PrefixPostingsV2) : List ℕ :=
  match p.cursor with
  | none => p.ids
  | some (b, idx) =>
    match p.entries.drop b with
    | [] => []
    | e :: post => rest e idx post

/-- `seek(val)` reads only ids, and stops at the first one that is not before the cursor and not
below `val`. -/
def SeekMeets (p : PrefixPostingsV2) (val : ℕ) : Prop :=
  ∃ r, p.checkedSeek val = some r ∧ Cursor.Seeks at' p.left val r

theorem Valid.here_of_onId (h : p.Valid) (hid : p.onId = true) : Here p p.left := by
  unfold onId at hid
  unfold left
  cases hcursor : p.cursor with
  | none => simp [hcursor] at hid
  | some c =>
    obtain ⟨b, idx⟩ := c
    simp only [hcursor, decide_eq_true_eq] at hid
    obtain ⟨hb, hidx⟩ := hid
    rw [h.blocked.length_blocks] at hb
    have hdrop := drop_eq_getElem_cons hb
    have hsplit : p.entries = p.entries.take b ++ p.entries[b] :: p.entries.drop (b + 1) := by
      rw [← hdrop, take_append_drop]
    have hlen : (p.entries.take b).length = b := by
      rw [length_take, Nat.min_eq_left (Nat.le_of_lt hb)]
    have hblock := h.blocked.getD_blocks hsplit
    rw [hlen] at hblock
    rw [hblock] at hidx
    dsimp only
    rw [hdrop]
    exact ⟨h, .at h.blocked _ _ _ idx hsplit (by rw [hcursor, hlen]) hidx rfl⟩

theorem Here.left_pairwise (h : Here p l) : l.Pairwise (· < ·) := by
  obtain ⟨-, pre, e, post, idx, hsplit, -, -, rfl⟩ := h.pointing
  have hasc := h.valid.ids_pairwise
  rw [ids_eq_append hsplit idx] at hasc
  exact (pairwise_append.1 hasc).2.1

theorem Here.seeks (h : Here p l) (v : ℕ) : Cursor.Seeks at' l v (p.seek v) := by
  obtain ⟨hfound, hpoint⟩ := h.leaves_seek v
  refine Cursor.seeks_of_dropWhile h.left_pairwise hfound fun x l' hdrop => ?_
  have hat := hpoint (by rw [hdrop]; exact cons_ne_nil x l')
  rw [hdrop] at hat
  exact hat.at_eq

theorem Fresh.seeks_iff (h : Fresh p l) (v : ℕ) :
    Cursor.Seeks at' l v (p.seek v) ↔ ∀ x ∈ l.head?, v ≤ x := by
  have hasc : l.Pairwise (· < ·) := h.ids_eq ▸ h.valid.ids_pairwise
  have hunread : Unread p l := ⟨h.valid.blocked, h.cursor, h.ids_eq⟩
  have heq : p.seek v = p.next := by simp only [seek, PrefixPostingsV2.next, h.cursor]
  obtain ⟨hfound, hpoint⟩ := hunread.next
  rw [heq]
  cases l with
  | nil =>
    refine iff_of_true (Cursor.seeks_of_dropWhile hasc hfound fun x l' hnil => ?_) (by simp)
    simp at hnil
  | cons x l =>
    have hat := (hpoint (cons_ne_nil x l)).at_eq
    constructor
    · intro hseeks y hy
      obtain rfl : x = y := by simpa using hy
      exact hat ▸ (hseeks.least hfound).2.1
    · intro hle
      have hdrop : (x :: l).dropWhile (· < v) = x :: l :=
        dropWhile_cons_of_neg (by simpa using hle x rfl)
      refine Cursor.seeks_of_dropWhile hasc (by rw [hdrop]; exact hfound) fun y l' hy => ?_
      rw [hdrop] at hy
      rw [hat, (List.cons.inj hy).1]

theorem Valid.seekMeets_iff (h : p.Valid) (v : ℕ) :
    p.SeekMeets v ↔ p.onId = true ∨ (p.cursor = none ∧ ∀ x ∈ p.ids.head?, v ≤ x) := by
  by_cases hid : p.onId = true
  · refine iff_of_true ⟨p.seek v, ?_, (h.here_of_onId hid).seeks v⟩ (Or.inl hid)
    rw [checkedSeek, hid, Bool.or_true, if_pos rfl]
  · cases hcursor : p.cursor with
    | none =>
      have hleft : p.left = p.ids := by simp only [left, hcursor]
      have hseek : p.checkedSeek v = some (p.seek v) := by
        rw [checkedSeek, hcursor]
        rfl
      have hfresh : Fresh p p.ids := ⟨h, hcursor, rfl⟩
      rw [SeekMeets, hseek, hleft]
      simp only [Option.some.injEq, exists_eq_left', hfresh.seeks_iff v, hid, true_and, false_or,
        Bool.false_eq_true]
    | some c =>
      refine iff_of_false ?_ (by simp [hid])
      rintro ⟨r, hseek, -⟩
      rw [checkedSeek, hcursor, if_neg (by simpa using hid)] at hseek
      cases hseek

end PrefixPostingsV2

end PromTCS
