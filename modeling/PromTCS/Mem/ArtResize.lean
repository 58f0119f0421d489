import PromTCS.Mem.ArtLayout

/-!
# Growth and shrinking of a node

A full node moves to the next layout with its new child, and a node that gets too small
moves to the one below without the child that leaves. Each move keeps what the node
represents. The move from 256 to 48 fails if the node has more than 48 children left, which
happens when its counter has gone from 255 to 0.
-/

namespace PromTCS

open List Function

namespace Art

namespace ArtArrays

variable {C : Type} {a : ArtArrays C} {f : Byte → Option C} {c : Byte} {x : C}

/-! ## Children copied in order -/

theorem represents_copied {type : NodeType} (htype : Small type)
    (hle : degree f ≤ type.childrenLen) :
    ∃ keys children,
      copy (alloc type : ArtArrays C).keys 0 ((entries f).map Prod.fst) = .ok keys ∧
      copy (alloc type : ArtArrays C).children 0 ((entries f).map fun e => some e.2) =
        .ok children ∧
      Represents { (alloc type : ArtArrays C) with
        numChildren := BitVec.ofNat 8 (degree f), keys := keys, children := children } f := by
  have hklen : ((entries f).map Prod.fst).length ≤ (alloc type : ArtArrays C).keys.length := by
    rw [length_map, alloc, length_replicate, htype.keysLen]
    exact hle
  have hclen : ((entries f).map fun e => some e.2).length ≤
      (alloc type : ArtArrays C).children.length := by
    rw [length_map, alloc, length_replicate]
    exact hle
  refine ⟨_, _, copy_eq_ok hklen, copy_eq_ok hclen, rfl, ?_, ?_,
    htype.layout.2 ⟨prefix_append _ _, prefix_append _ _⟩⟩
  · rw [length_append, length_drop, Nat.add_sub_cancel' hklen]
    exact length_replicate
  · rw [length_append, length_drop, Nat.add_sub_cancel' hclen]
    exact length_replicate

theorem Represents.growAndInsert4 (h : a.Represents f) (htype : a.type = .node4)
    (hc : f c = none) (x : C) :
    Yields (a.growAndInsert4 c x) (update f c (some x)) .node16 := by
  have hsmall : Small a.type := Or.inl htype
  have hle := h.degree_le_small hsmall
  rw [htype] at hle
  obtain ⟨keys, children, hkeys, hchildren, hnew⟩ := represents_copied (f := f)
    (Or.inr rfl : Small .node16) (hle.trans (by decide))
  obtain ⟨a', hadd, hrep, htype'⟩ := hnew.addChild16 rfl (hle.trans_lt (by decide)) hc x
  refine ⟨a', ?_, hrep, htype'⟩
  rw [← h.take_keys hsmall] at hkeys
  rw [← h.take_children hsmall] at hchildren
  rw [← h.num] at hadd
  simp only [ArtArrays.growAndInsert4, bind, hchildren, Run.ok_bind, hkeys, hadd]

theorem Represents.removeChildAndShrink16 (h : a.Represents f) (htype : a.type = .node16)
    (hdeg : degree f = node16MinSize) (hc : f c = some x) :
    Yields (a.removeChildAndShrink16 c) (update f c none) .node4 := by
  have hsmall : Small a.type := Or.inr htype
  have hdeg' : degree (update f c none) = node16MinSize - 1 := by
    rw [← hdeg, ← degree_update_none hc, Nat.add_sub_cancel]
  have hkept : ((a.keys.zip a.children).take a.numChildren.toNat).filter (fun e => e.1 ≠ c) =
      (entries (update f c none)).map fun e => (e.1, some e.2) := by
    rw [List.zip, take_zipWith, ← List.zip, h.take_keys hsmall, h.take_children hsmall, zip_map',
      filter_map, (lists_entries _).eq ((lists_entries f).filter_ne c)]
    rfl
  obtain ⟨keys, children, hkeys, hchildren, hnew⟩ := represents_copied
    (f := update f c none) (Or.inl rfl : Small .node4) (by rw [hdeg']; decide)
  refine ⟨_, ?_, hnew, rfl⟩
  simp only [ArtArrays.removeChildAndShrink16, hkept, map_map, bind, comp_def,
    hkeys, Run.ok_bind, hchildren, hdeg']
  rfl

/-! ## Children of the layout of 48 -/

theorem Slotted.slotted_eq (h : a.Slotted f) :
    a.slotted = (entries f).map fun e => (e.1, some e.2) := by
  rw [ArtArrays.slotted, entries, ListsMap.listing, map_filterMap]
  congr 1
  funext b
  cases hslot : a.slot b with
  | none => rw [h.vacant hslot, Option.map_none, Option.map_none, Option.map_none]
  | some pos =>
    obtain ⟨x, hx, hget⟩ := h.child hslot
    simp only [hx, Option.map_some, hget, Option.join_some]

theorem Represents.removeChildAndShrink48 (h : a.Represents f) (htype : a.type = .node48)
    (hdeg : degree f = node48MinSize) (hc : f c = some x) :
    Yields (a.removeChildAndShrink48 c) (update f c none) .node16 := by
  have hdeg' : degree (update f c none) = node48MinSize - 1 := by
    rw [← hdeg, ← degree_update_none hc, Nat.add_sub_cancel]
  have hkept : a.slotted.filter (fun e => e.1 ≠ c) =
      (entries (update f c none)).map fun e => (e.1, some e.2) := by
    rw [(h.slotted htype).1.slotted_eq, filter_map,
      (lists_entries _).eq ((lists_entries f).filter_ne c)]
    rfl
  obtain ⟨keys, children, hkeys, hchildren, hnew⟩ := represents_copied
    (f := update f c none) (Or.inr rfl : Small .node16) (by rw [hdeg']; decide)
  refine ⟨_, ?_, hnew, rfl⟩
  simp only [ArtArrays.removeChildAndShrink48, hkept, map_map, bind, comp_def,
    hkeys, Run.ok_bind, hchildren, hdeg']
  rfl

theorem Represents.growAndInsert48 (h : a.Represents f) (htype : a.type = .node48)
    (hc : f c = none) (x : C) :
    Yields (a.growAndInsert48 c x) (update f c (some x)) .node256 := by
  have hslotted := (h.slotted htype).1.slotted_eq
  have hlt : ∀ e ∈ (entries f).map (fun e => (e.1.toNat, some e.2)),
      e.1 < (alloc .node256 : ArtArrays C).children.length := by
    intro e he
    obtain ⟨e', -, rfl⟩ := mem_map.1 he
    rw [alloc, length_replicate]
    exact e'.1.isLt
  have hkeys : ((entries f).map fun e => (e.1.toNat, some e.2)).map Prod.fst =
      ((entries f).map Prod.fst).map BitVec.toNat := by
    rw [map_map, map_map]
    rfl
  have hnodup : (((entries f).map fun e => (e.1.toNat, some e.2)).map Prod.fst).Nodup := by
    rw [hkeys]
    exact (lists_entries f).nodup_keys.map fun _ _ => BitVec.eq_of_toNat_eq
  obtain ⟨children, hwrite, hlen, hmem, hother⟩ :=
    InPlace.writeAll_eq_ok Fault.outOfBounds hlt hnodup
  have hdirect : Direct { (alloc .node256 : ArtArrays C) with
      numChildren := a.numChildren, children := children } f := by
    intro b
    cases hb : f b with
    | some x =>
      have he := (lists_entries f).mem_iff.2 hb
      exact hmem _ (mem_map_of_mem he)
    | none =>
      have hnot : b.toNat ∉ ((entries f).map fun e => (e.1.toNat, some e.2)).map Prod.fst := by
        rw [hkeys, mem_map]
        rintro ⟨b', hb', heq⟩
        rw [BitVec.eq_of_toNat_eq heq, (lists_entries f).mem_keys] at hb'
        exact hb' hb
      refine (hother _ hnot).trans ?_
      exact getElem?_replicate_of_lt b.isLt
  have hrep := hdirect.represents rfl h.num rfl (hlen.trans length_replicate)
  obtain ⟨a', hadd, hrep', htype'⟩ := hrep.addChild256 rfl hc x
  refine ⟨a', ?_, hrep', htype'⟩
  simp only [ArtArrays.growAndInsert48, hslotted, map_map, bind, comp_def, hwrite,
    Run.ok_bind, hadd]

/-! ## From 16 to 48 -/

theorem getLsbD_growSlots : ∀ pos < 48, node48GrowSlots.getLsbD (47 - pos) = decide (pos < 16) := by
  decide

theorem getLsbD_growSlots_top : ∀ i < 64, 48 ≤ i → node48GrowSlots.getLsbD i = true := by
  decide

theorem slotted_of_places (hdeg : degree f = 16)
    (hslot : ∀ b pos, a.slot b = some pos ↔ ∃ x, (entries f)[pos]? = some (b, x))
    (hchildren : ((entries f).map fun e => some e.2) <+: a.children)
    (hslots : a.slots = node48GrowSlots) : a.Slotted f where
  child {b pos} hs := by
    obtain ⟨x, hx⟩ := (hslot b pos).1 hs
    refine ⟨x, (lists_entries f).mem_iff.1 (mem_of_getElem? hx), ?_⟩
    obtain ⟨rest, hrest⟩ := hchildren
    have hlt : pos < ((entries f).map fun e => some e.2).length := by
      rw [length_map]
      exact (List.getElem?_eq_some_iff.1 hx).1
    rw [← hrest, getElem?_append_left hlt, getElem?_map, hx, Option.map_some]
  vacant {b} hs := by
    by_contra hne
    obtain ⟨x, hx⟩ := Option.ne_none_iff_exists'.1 hne
    obtain ⟨pos, hpos⟩ := getElem?_of_mem ((lists_entries f).mem_iff.2 hx)
    rw [(hslot b pos).2 ⟨x, hpos⟩] at hs
    cases hs
  inj {b b' pos} hs hs' := by
    obtain ⟨x, hx⟩ := (hslot b pos).1 hs
    obtain ⟨x', hx'⟩ := (hslot b' pos).1 hs'
    rw [hx, Option.some.injEq] at hx'
    exact congrArg Prod.fst hx'
  used {pos} hpos := by
    rw [hslots, getLsbD_growSlots pos hpos, decide_eq_true_eq, ← hdeg]
    constructor
    · intro hlt
      exact ⟨_, (hslot _ pos).2 ⟨_, getElem?_eq_getElem hlt⟩⟩
    · rintro ⟨b, hb⟩
      obtain ⟨x, hx⟩ := (hslot b pos).1 hb
      exact (List.getElem?_eq_some_iff.1 hx).1
  top {i} hi hi' := by
    rw [hslots]
    exact getLsbD_growSlots_top i hi' hi

variable {b : Byte}

theorem slot_of_key {pos : ℕ} (hkey : a.keys[b.toNat]? = some (BitVec.ofNat 8 (pos + 1)))
    (hpos : pos < 48) : a.slot b = some pos := by
  have htoNat : (BitVec.ofNat 8 (pos + 1)).toNat = pos + 1 := by
    rw [BitVec.toNat_ofNat, Nat.mod_eq_of_lt (by omega)]
  have hne : BitVec.ofNat 8 (pos + 1) ≠ 0 := by
    intro hzero
    rw [hzero] at htoNat
    cases htoNat
  simp only [slot, hkey, if_neg hne, htoNat, Nat.add_sub_cancel]

theorem slot_of_zero (hkey : a.keys[b.toNat]? = some 0) : a.slot b = none := by
  simp only [slot, hkey, if_pos]

theorem Represents.growAndInsert16 (h : a.Represents f) (htype : a.type = .node16)
    (hdeg : degree f = 16) (hc : f c = none) (x : C) :
    Yields (a.growAndInsert16 c x) (update f c (some x)) .node48 := by
  have hsmall : Small a.type := Or.inr htype
  obtain ⟨es, hes⟩ : ∃ es, es = ((entries f).map Prod.fst).zipIdx.map
      fun e => (e.1.toNat, BitVec.ofNat 8 (e.2 + 1)) := ⟨_, rfl⟩
  have hkeys : es.map Prod.fst = ((entries f).map Prod.fst).map BitVec.toNat := by
    rw [hes, map_map, ← zipIdx_map_fst 0 ((entries f).map Prod.fst), map_map,
      zipIdx_map_fst]
    rfl
  have hlt : ∀ e ∈ es, e.1 < (alloc .node48 : ArtArrays C).keys.length := by
    intro e he
    rw [hes] at he
    obtain ⟨e', -, rfl⟩ := mem_map.1 he
    rw [alloc, length_replicate]
    exact e'.1.isLt
  have hnodup : (es.map Prod.fst).Nodup := by
    rw [hkeys]
    exact (lists_entries f).nodup_keys.map fun _ _ => BitVec.eq_of_toNat_eq
  obtain ⟨keys, hwrite, hlen, hmem, hother⟩ :=
    InPlace.writeAll_eq_ok Fault.outOfBounds hlt hnodup
  have hchildren : copy (alloc .node48 : ArtArrays C).children 0 (a.children.take
      a.numChildren.toNat) = .ok (((entries f).map fun e => some e.2) ++
        (alloc .node48 : ArtArrays C).children.drop 16) := by
    rw [h.take_children hsmall, copy_eq_ok, length_map, ← degree, hdeg]
    rw [length_map, ← degree, hdeg, alloc, length_replicate]
    decide
  obtain ⟨new, hnew⟩ : ∃ new : ArtArrays C, new = { (alloc .node48 : ArtArrays C) with
      slots := node48GrowSlots, numChildren := a.numChildren, keys := keys
      children := ((entries f).map fun e => some e.2) ++
        (alloc .node48 : ArtArrays C).children.drop 16 } := ⟨_, rfl⟩
  have hplace : ∀ {b pos y}, (entries f)[pos]? = some (b, y) → new.slot b = some pos := by
    intro b pos y hy
    have hpos : pos < degree f := (List.getElem?_eq_some_iff.1 hy).1
    refine slot_of_key ?_ (by omega)
    rw [hnew]
    refine hmem (b.toNat, BitVec.ofNat 8 (pos + 1)) ?_
    rw [hes]
    refine mem_map.2 ⟨(b, pos), mk_mem_zipIdx_iff_getElem?.2 ?_, rfl⟩
    rw [getElem?_map, hy, Option.map_some]
  have hslot : ∀ b pos, new.slot b = some pos ↔ ∃ y, (entries f)[pos]? = some (b, y) := by
    intro b pos
    constructor
    · intro hs
      cases hb : f b with
      | some y =>
        obtain ⟨pos', hpos'⟩ := getElem?_of_mem ((lists_entries f).mem_iff.2 hb)
        rw [hplace hpos', Option.some.injEq] at hs
        exact ⟨y, hs ▸ hpos'⟩
      | none =>
        have hnot : b.toNat ∉ es.map Prod.fst := by
          rw [hkeys, mem_map]
          rintro ⟨b', hb', heq⟩
          rw [BitVec.eq_of_toNat_eq heq, (lists_entries f).mem_keys] at hb'
          exact hb' hb
        have hzero : new.keys[b.toNat]? = some 0 := by
          rw [hnew]
          exact (hother _ hnot).trans (getElem?_replicate_of_lt b.isLt)
        rw [slot_of_zero hzero] at hs
        cases hs
    · rintro ⟨y, hy⟩
      exact hplace hy
  have hslotted : new.Slotted f := by
    refine slotted_of_places hdeg hslot ?_ ?_ <;> rw [hnew]
    exact prefix_append _ _
  have hrep : new.Represents f := by
    refine hslotted.represents ?_ ?_ ?_ ?_ <;> rw [hnew]
    · rfl
    · exact h.num
    · exact hlen.trans length_replicate
    · rw [length_append, length_map, ← degree, hdeg, length_drop, alloc,
        length_replicate]
      rfl
  obtain ⟨a', hadd, hrep', htype'⟩ :=
    hrep.addChild48 (by rw [hnew]; rfl) (by omega) hc x
  refine ⟨a', ?_, hrep', htype'⟩
  rw [← h.take_keys hsmall] at hes
  rw [hnew] at hadd
  simp only [ArtArrays.growAndInsert16, bind, hchildren, Run.ok_bind, ← hes, hwrite, hadd]

/-! ## From 256 to 48 -/

theorem slotted_alloc (num : BitVec 8) :
    ({ alloc .node48 with numChildren := num } : ArtArrays C).Slotted fun _ => none := by
  have hslot : ∀ b, ({ alloc .node48 with numChildren := num } : ArtArrays C).slot b = none :=
    fun b => slot_of_zero (getElem?_replicate_of_lt b.isLt)
  have hbits : ∀ pos < 48, node48EmptySlots.getLsbD (47 - pos) = false := by decide
  have htop : ∀ i < 64, 48 ≤ i → node48EmptySlots.getLsbD i = true := by decide
  refine ⟨?_, fun _ => rfl, ?_, ?_, ?_⟩
  · intro b pos hs
    rw [hslot] at hs
    cases hs
  · intro b b' pos hs
    rw [hslot] at hs
    cases hs
  · intro pos hpos
    refine iff_of_false ?_ ?_
    · rw [alloc, if_pos rfl, hbits pos hpos]
      exact Bool.false_ne_true
    · rintro ⟨b, hs⟩
      rw [hslot] at hs
      cases hs
  · intro i hi hi'
    rw [alloc, if_pos rfl]
    exact htop i hi' hi

theorem moveChild_eq_ok (h : a.Slotted f) (htype : a.type = .node48) (hkeys : a.keys.length = 256)
    (hchildren : a.children.length = 48) (hlt : degree f < 48) (hc : f c = none) (x : C) :
    ∃ a', moveChild a (c, x) = .ok a' ∧ a'.Slotted (update f c (some x)) ∧
      a'.type = .node48 ∧ a'.keys.length = 256 ∧ a'.children.length = 48 ∧
      a'.numChildren = a.numChildren := by
  obtain ⟨pos, slots, halloc, hpos, hput⟩ := h.put hkeys hchildren hlt hc x
  refine ⟨_, ?_, hput a.numChildren, htype, List.length_set.trans hkeys,
    List.length_set.trans hchildren, rfl⟩
  have hchild := write_eq_ok (hchildren ▸ hpos : pos < a.children.length) (some x)
  have hkey := write_eq_ok (hkeys ▸ c.isLt : c.toNat < a.keys.length) (BitVec.ofNat 8 (pos + 1))
  simp only [moveChild, halloc, bind, Run.ok_bind, hchild, hkey]
  rfl

theorem moveChild_of_full (h : a.Slotted f) (hchildren : a.children.length = 48)
    (hle : 48 ≤ degree f) (e : Byte × C) : moveChild a e = .error .undefined := by
  simp only [moveChild, allocSlot_of_full (h.full hchildren hle)]
  rfl

theorem foldlM_moveChild (done : List (Byte × C)) {todo : List (Byte × C)} {g : Byte → Option C}
    (hg : ListsMap (done ++ todo) g) (hf : ListsMap done f) (h : a.Slotted f) (htype : a.type = .node48)
    (hkeys : a.keys.length = 256) (hchildren : a.children.length = 48)
    (hdone : done.length ≤ 48) :
    ((done ++ todo).length ≤ 48 → ∃ a', todo.foldlM moveChild a = .ok a' ∧ a'.Slotted g ∧
      a'.type = .node48 ∧ a'.keys.length = 256 ∧ a'.children.length = 48 ∧
      a'.numChildren = a.numChildren) ∧
    (48 < (done ++ todo).length → todo.foldlM moveChild a = .error .undefined) := by
  induction todo generalizing done f a with
  | nil =>
    rw [append_nil] at hg ⊢
    refine ⟨fun _ => ⟨a, rfl, ?_, htype, hkeys, hchildren, rfl⟩, fun hlt => ?_⟩
    · rwa [hg.map_eq hf]
    · exact absurd hlt (not_lt.2 hdone)
  | cons e todo ih =>
    have hdeg : degree f = done.length := by rw [degree, (lists_entries f).eq hf]
    have hsplit := hg.lt_of_split
    have hnone : f e.1 = none := by
      by_contra hne
      obtain ⟨x, hx⟩ := Option.ne_none_iff_exists'.1 hne
      exact lt_irrefl e.1 (hsplit.1 (e.1, x) (hf.mem_iff.2 hx))
    have hf' : ListsMap (done ++ [e]) (update f e.1 (some e.2)) := by
      rw [← append_nil done] at hf
      exact hf.insert hsplit.1 fun _ he => absurd he not_mem_nil
    rw [← singleton_append, ← append_assoc] at hg ⊢
    rw [singleton_append, foldlM_cons]
    by_cases hroom : done.length < 48
    · obtain ⟨a', hmove, hslotted, htype', hkeys', hchildren', hnum⟩ :=
        moveChild_eq_ok h htype hkeys hchildren (hdeg ▸ hroom) hnone e.2
      have hdone' : (done ++ [e]).length ≤ 48 := by
        rw [length_append, length_singleton]
        exact hroom
      have hrest := ih (done ++ [e]) hg hf' hslotted htype' hkeys' hchildren' hdone'
      rw [hnum] at hrest
      simp only [bind, show moveChild a e = .ok a' from hmove, Run.ok_bind]
      exact hrest
    · refine ⟨fun hle => ?_, fun _ => ?_⟩
      · rw [length_append, length_append, length_singleton] at hle
        omega
      · rw [moveChild_of_full h hchildren (hdeg ▸ not_lt.1 hroom)]
        rfl

theorem Represents.kept_256 (h : a.Represents f) (htype : a.type = .node256) :
    (ListsMap.listing bytes fun b => if b ≠ c then a.children[b.toNat]?.join else none) =
      entries (update f c none) := by
  rw [entries]
  congr 1
  funext b
  by_cases hb : b = c
  · rw [if_neg (not_not.2 hb), hb, update_self]
  · rw [if_pos hb, update_of_ne hb, (h.direct htype).1 b, Option.join_some]

theorem Represents.removeChildAndShrink256 (h : a.Represents f) (htype : a.type = .node256)
    (hdeg : degree f = node256MinSize) (hc : f c = some x) :
    Yields (a.removeChildAndShrink256 c) (update f c none) .node48 := by
  have hdeg' : degree (update f c none) = node256MinSize - 1 := by
    rw [← hdeg, ← degree_update_none hc, Nat.add_sub_cancel]
  obtain ⟨a', hfold, hslotted, htype', hkeys, hchildren, hnum⟩ :=
    (foldlM_moveChild [] (lists_entries (update f c none)) ListsMap.nil
      (slotted_alloc (BitVec.ofNat 8 (node256MinSize - 1))) rfl length_replicate
      length_replicate (Nat.zero_le _)).1 (by
        change degree (update f c none) ≤ 48
        rw [hdeg']
        decide)
  refine ⟨a', ?_, hslotted.represents htype' ?_ hkeys hchildren, htype'⟩
  · rw [ArtArrays.removeChildAndShrink256, h.kept_256 htype]
    exact hfold
  · rw [hnum, hdeg']

theorem Represents.removeChildAndShrink256_of_full (h : a.Represents f)
    (htype : a.type = .node256) (hdeg : 49 < degree f) (hc : f c = some x) :
    a.removeChildAndShrink256 c = .error .undefined := by
  have hdeg' := degree_update_none hc
  have hfold := (foldlM_moveChild [] (lists_entries (update f c none))
    ListsMap.nil (slotted_alloc (BitVec.ofNat 8 (node256MinSize - 1))) rfl length_replicate
    length_replicate (Nat.zero_le _)).2 (by
      change 48 < degree (update f c none)
      omega)
  rw [ArtArrays.removeChildAndShrink256, h.kept_256 htype]
  exact hfold

/-! ## Sizes -/

def minSize : NodeType → ℕ
  | .node4 => 0
  | .node16 => node16MinSize
  | .node48 => node48MinSize
  | .node256 => node256MinSize

structure Fits (type : NodeType) (d : ℕ) : Prop where
  min_le : minSize type ≤ d
  le_max : d ≤ type.childrenLen

theorem degree_lt_of_none (hc : f c = none) (x : C) : degree f < 256 := by
  have hle := degree_le (update f c (some x))
  rw [degree_update_some hc] at hle
  exact hle

theorem Represents.addChild (h : a.Represents f) (hfits : Fits a.type (degree f))
    (hfull : a.nodeFull = false) (hc : f c = none) (x : C) :
    ∃ a', a.addChild c x = .ok a' ∧ a'.Represents (update f c (some x)) ∧
      a'.type = a.type ∧ Fits a'.type (degree f + 1) := by
  have hnum := h.toNat_num (degree_lt_of_none hc x)
  have hmin := hfits.min_le
  cases htype : a.type with
  | node4 =>
    simp only [nodeFull, htype, hnum, decide_eq_false_iff_not, not_le] at hfull
    obtain ⟨a', hadd, hrep, htype'⟩ := h.addChild4 htype hfull hc x
    refine ⟨a', by rw [ArtArrays.addChild, htype]; exact hadd, hrep, htype', ?_⟩
    rw [htype']
    exact ⟨Nat.zero_le _, hfull⟩
  | node16 =>
    simp only [nodeFull, htype, hnum, decide_eq_false_iff_not, not_le] at hfull
    obtain ⟨a', hadd, hrep, htype'⟩ := h.addChild16 htype hfull hc x
    refine ⟨a', by rw [ArtArrays.addChild, htype]; exact hadd, hrep, htype', ?_⟩
    rw [htype'] at *
    rw [htype] at hmin
    exact ⟨Nat.le_succ_of_le hmin, hfull⟩
  | node48 =>
    simp only [nodeFull, htype, hnum, decide_eq_false_iff_not, not_le] at hfull
    obtain ⟨a', hadd, hrep, htype'⟩ := h.addChild48 htype hfull hc x
    refine ⟨a', by rw [ArtArrays.addChild, htype]; exact hadd, hrep, htype', ?_⟩
    rw [htype'] at *
    rw [htype] at hmin
    exact ⟨Nat.le_succ_of_le hmin, hfull⟩
  | node256 =>
    obtain ⟨a', hadd, hrep, htype'⟩ := h.addChild256 htype hc x
    refine ⟨a', by rw [ArtArrays.addChild, htype]; exact hadd, hrep, htype', ?_⟩
    rw [htype'] at *
    rw [htype] at hmin
    exact ⟨Nat.le_succ_of_le hmin, degree_lt_of_none hc x⟩

theorem Represents.growAndInsert (h : a.Represents f) (hfits : Fits a.type (degree f))
    (hfull : a.nodeFull = true) (hc : f c = none) (x : C) :
    ∃ a', a.growAndInsert c x = .ok a' ∧ a'.Represents (update f c (some x)) ∧
      Fits a'.type (degree f + 1) := by
  have hnum := h.toNat_num (degree_lt_of_none hc x)
  have hmax := hfits.le_max
  cases htype : a.type with
  | node4 =>
    simp only [nodeFull, htype, hnum, decide_eq_true_eq] at hfull
    rw [htype] at hmax
    obtain ⟨a', hadd, hrep, htype'⟩ := h.growAndInsert4 htype hc x
    refine ⟨a', by rw [ArtArrays.growAndInsert, htype]; exact hadd, hrep, ?_⟩
    rw [htype']
    exact ⟨Nat.le_succ_of_le hfull, Nat.succ_le_succ (hmax.trans (by decide))⟩
  | node16 =>
    simp only [nodeFull, htype, hnum, decide_eq_true_eq] at hfull
    rw [htype] at hmax
    obtain ⟨a', hadd, hrep, htype'⟩ := h.growAndInsert16 htype (le_antisymm hmax hfull) hc x
    refine ⟨a', by rw [ArtArrays.growAndInsert, htype]; exact hadd, hrep, ?_⟩
    rw [htype']
    exact ⟨Nat.le_succ_of_le (le_trans (by decide) hfull),
      Nat.succ_le_succ (hmax.trans (by decide))⟩
  | node48 =>
    simp only [nodeFull, htype, hnum, decide_eq_true_eq] at hfull
    rw [htype] at hmax
    obtain ⟨a', hadd, hrep, htype'⟩ := h.growAndInsert48 htype hc x
    refine ⟨a', by rw [ArtArrays.growAndInsert, htype]; exact hadd, hrep, ?_⟩
    rw [htype']
    exact ⟨Nat.le_succ_of_le (le_trans (by decide) hfull),
      Nat.succ_le_succ (hmax.trans (by decide))⟩
  | node256 =>
    simp [nodeFull, htype] at hfull

/-! ## Some child -/

theorem exists_of_degree_pos (h : 0 < degree f) : ∃ b x, f b = some x := by
  obtain ⟨⟨b, x⟩, hmem⟩ := exists_mem_of_length_pos h
  exact ⟨b, x, (lists_entries f).mem_iff.1 hmem⟩

theorem exists_ne_of_two_le_degree (h : 2 ≤ degree f) (c : Byte) : ∃ b x, b ≠ c ∧ f b = some x := by
  cases hc : f c with
  | none =>
    obtain ⟨b, x, hb⟩ := exists_of_degree_pos (Nat.lt_of_lt_of_le Nat.zero_lt_two h)
    refine ⟨b, x, ?_, hb⟩
    rintro rfl
    rw [hc] at hb
    cases hb
  | some y =>
    have hdeg := degree_update_none hc
    obtain ⟨b, x, hb⟩ := exists_of_degree_pos (f := update f c none) (by omega)
    by_cases hbc : b = c
    · rw [hbc, update_self] at hb
      cases hb
    · rw [update_of_ne hbc] at hb
      exact ⟨b, x, hbc, hb⟩

theorem degree_eq_of_all (h : ∀ b, f b ≠ none) : degree f = 256 := by
  have hnodup : bytes.Nodup := bytes_ascending.imp ne_of_lt
  have hsub : bytes ⊆ (entries f).map Prod.fst :=
    fun b _ => (lists_entries f).mem_keys.2 (h b)
  have hle := (hnodup.subperm hsub).length_le
  rw [bytes, length_map, length_range, length_map] at hle
  exact le_antisymm (degree_le f) hle

theorem ne_none_of_degree_eq (h : degree f = 256) (b : Byte) : f b ≠ none := by
  intro hb
  obtain ⟨-, x, -⟩ := exists_of_degree_pos (f := f) (by omega)
  exact (degree_lt_of_none hb x).ne h

theorem Represents.getElem?_small (h : a.Represents f) (htype : Small a.type) {i : ℕ}
    (hi : (entries f)[i]? = some (b, x)) :
    a.keys[i]? = some b ∧ a.children[i]? = some (some x) := by
  obtain ⟨krest, hkeys⟩ := (h.inOrder htype).keys
  obtain ⟨crest, hchildren⟩ := (h.inOrder htype).children
  have hlt := (List.getElem?_eq_some_iff.1 hi).1
  rw [← hkeys, ← hchildren, getElem?_append_left (by rwa [length_map]),
    getElem?_append_left (by rwa [length_map]), getElem?_map, getElem?_map, hi]
  exact ⟨rfl, rfl⟩

theorem Represents.firstChild_small (h : a.Represents f) (htype : Small a.type)
    (hdeg : 0 < degree f) :
    ∃ b x, f b = some x ∧ a.keys[0]? = some b ∧ a.children[0]? = some (some x) := by
  obtain ⟨⟨b, x⟩, l, hl⟩ := exists_cons_of_length_pos hdeg
  have hhead : (entries f)[0]? = some (b, x) := by rw [hl, getElem?_cons_zero]
  exact ⟨b, x, (lists_entries f).mem_iff.1 (mem_of_getElem? hhead),
    h.getElem?_small htype hhead⟩

theorem Represents.firstChild (h : a.Represents f) (hdeg : 0 < degree f) :
    ∃ b x, f b = some x ∧ a.firstChild = some x := by
  cases htype : a.type with
  | node4 =>
    obtain ⟨b, x, hb, -, hget⟩ := h.firstChild_small (Or.inl htype) hdeg
    refine ⟨b, x, hb, ?_⟩
    simp only [ArtArrays.firstChild, htype, hget, Option.join_some]
  | node16 =>
    obtain ⟨b, x, hb, -, hget⟩ := h.firstChild_small (Or.inr htype) hdeg
    refine ⟨b, x, hb, ?_⟩
    simp only [ArtArrays.firstChild, htype, hget, Option.join_some]
  | node48 =>
    obtain ⟨⟨b, x⟩, l, hl⟩ := exists_cons_of_length_pos hdeg
    refine ⟨b, x, (lists_entries f).mem_iff.1 (hl ▸ mem_cons_self), ?_⟩
    simp only [ArtArrays.firstChild, htype, (h.slotted htype).1.slotted_eq, hl, map_cons,
      head?_cons, Option.bind_some]
  | node256 =>
    have hdirect := (h.direct htype).1
    cases hfirst : a.children.findSome? id with
    | none =>
      obtain ⟨b, x, hb⟩ := exists_of_degree_pos hdeg
      have hget := hdirect b
      rw [hb] at hget
      have hnone := findSome?_eq_none_iff.1 hfirst _ (mem_of_getElem? hget)
      cases hnone
    | some x =>
      obtain ⟨y, hy, rfl⟩ := exists_of_findSome?_eq_some hfirst
      obtain ⟨i, hi⟩ := getElem?_of_mem hy
      have hlt : i < 256 := by
        rw [← (h.direct htype).2.2]
        exact (List.getElem?_eq_some_iff.1 hi).1
      have hget := hdirect (BitVec.ofNat 8 i)
      rw [BitVec.toNat_ofNat, Nat.mod_eq_of_lt hlt, hi, Option.some.injEq] at hget
      refine ⟨BitVec.ofNat 8 i, x, hget.symm, ?_⟩
      simp only [ArtArrays.firstChild, htype, hfirst]

theorem Represents.otherChild (h : a.Represents f) (htype : Small a.type) (hdeg : degree f = 2)
    (hc : f c = some x) :
    ∃ i b y, (a.keys.take a.numChildren.toNat).findIdx? (fun key => key ≠ c) = some i ∧
      a.keys[i]? = some b ∧ a.children[i]? = some (some y) ∧ b ≠ c ∧ f b = some y ∧
      ∀ b' ≠ b, b' ≠ c → f b' = none := by
  obtain ⟨l₁, l₂, hsplit, herase, -⟩ := exists_entries_split hc
  have hdeg' : (l₁ ++ l₂).length = 1 := by
    have hupdate := degree_update_none hc
    rw [degree, herase] at hupdate
    omega
  obtain ⟨⟨b, y⟩, hone⟩ := length_eq_one_iff.1 hdeg'
  have hlists := lists_entries (update f c none)
  rw [herase, hone] at hlists
  have hby : update f c none b = some y := hlists.mem_iff.1 mem_cons_self
  have hbc : b ≠ c := by
    rintro rfl
    rw [update_self] at hby
    cases hby
  rw [update_of_ne hbc] at hby
  have hothers : ∀ b' ≠ b, b' ≠ c → f b' = none := by
    intro b' hb hc'
    by_contra hne
    obtain ⟨z, hz⟩ := Option.ne_none_iff_exists'.1 hne
    rw [← update_of_ne hc' none f] at hz
    have hmem := hlists.mem_iff.2 hz
    rw [mem_singleton, Prod.mk.injEq] at hmem
    exact hb hmem.1
  rcases append_eq_cons_iff.1 hone with ⟨hl₁, hl₂⟩ | ⟨l, hl₁, hl₂⟩
  · rw [hl₁, hl₂, nil_append] at hsplit
    have hget : (entries f)[1]? = some (b, y) := by rw [hsplit]; rfl
    obtain ⟨hkey, hchild⟩ := h.getElem?_small htype hget
    refine ⟨1, b, y, ?_, hkey, hchild, hbc, hby, hothers⟩
    rw [h.take_keys htype, hsplit]
    simp [findIdx?_cons, hbc]
  · have hnil : l = [] ∧ l₂ = [] := by simpa using hl₂.symm
    rw [hl₁, hnil.1, hnil.2] at hsplit
    have hget : (entries f)[0]? = some (b, y) := by rw [hsplit]; rfl
    obtain ⟨hkey, hchild⟩ := h.getElem?_small htype hget
    refine ⟨0, b, y, ?_, hkey, hchild, hbc, hby, hothers⟩
    rw [h.take_keys htype, hsplit]
    simp [findIdx?_cons, hbc]

theorem eq_none_of_degree_eq_one (hdeg : degree f = 1) (hc : f c = some x) (hb : b ≠ c) :
    f b = none := by
  have hnil : entries (update f c none) = [] := by
    have hupdate := degree_update_none hc
    rw [hdeg] at hupdate
    exact eq_nil_of_length_eq_zero (Nat.succ.inj hupdate)
  have hlists := lists_entries (update f c none)
  rw [hnil] at hlists
  have hempty := congrFun (hlists.map_eq ListsMap.nil) b
  rwa [update_of_ne hb] at hempty

end ArtArrays

end Art

end PromTCS
