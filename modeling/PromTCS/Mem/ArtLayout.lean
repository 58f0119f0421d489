import Mathlib.Data.Finset.Card
import PromTCS.Mem.ArtArrays

/-!
# What a node represents

`a.Represents f` says that the arrays hold the child `f b` for each byte `b`. Each operation
on the arrays has one theorem that says how it changes `f`, in whichever layout the arrays
are.
-/

namespace PromTCS

open List Function

namespace Art

instance : LinearOrder Byte where
  le := (· ≤ ·)
  lt := (· < ·)
  le_refl := BitVec.le_refl
  le_trans _ _ _ := BitVec.le_trans
  le_antisymm _ _ := BitVec.le_antisymm
  le_total := BitVec.le_total
  lt_iff_le_not_ge a b := by
    rw [BitVec.lt_def, BitVec.le_def, BitVec.le_def]
    omega
  toDecidableLE := inferInstance
  toDecidableLT := inferInstance
  toDecidableEq := inferInstance

theorem bytes_ascending : bytes.Pairwise (· < ·) := by
  refine pairwise_map.2 (List.pairwise_lt_range.imp_of_mem ?_)
  intro i j _ hj hij
  rw [mem_range] at hj
  rw [BitVec.lt_def, BitVec.toNat_ofNat, BitVec.toNat_ofNat, Nat.mod_eq_of_lt (hij.trans hj),
    Nat.mod_eq_of_lt hj]
  exact hij

theorem mem_bytes (b : Byte) : b ∈ bytes := by
  refine mem_map.2 ⟨b.toNat, mem_range.2 b.isLt, ?_⟩
  rw [BitVec.ofNat_toNat, BitVec.setWidth_eq]

variable {C : Type}

def entries (f : Byte → Option C) : List (Byte × C) := ListsMap.listing bytes f

def degree (f : Byte → Option C) : ℕ := (entries f).length

theorem lists_entries (f : Byte → Option C) : ListsMap (entries f) f :=
  ListsMap.listing_of_all bytes_ascending mem_bytes f

theorem degree_empty : degree (fun _ => none : Byte → Option C) = 0 := by
  rw [degree, (lists_entries _).eq ListsMap.nil, length_nil]

variable {f : Byte → Option C} {c : Byte} {x y : C}

theorem entries_update_some (hc : f c = none) :
    entries (update f c (some x)) =
      (entries f).take ((entries f).findIdx fun e => c < e.1) ++
        (c, x) :: (entries f).drop ((entries f).findIdx fun e => c < e.1) :=
  (lists_entries _).eq ((lists_entries f).insert_findIdx hc)

theorem degree_update_some (hc : f c = none) :
    degree (update f c (some x)) = degree f + 1 := by
  rw [degree, entries_update_some hc, length_append, length_cons, ← Nat.add_assoc,
    ← length_append, take_append_drop, degree]

theorem exists_entries_split (hc : f c = some x) :
    ∃ l₁ l₂, entries f = l₁ ++ (c, x) :: l₂ ∧
      entries (update f c none) = l₁ ++ l₂ ∧
      ∀ y, entries (update f c (some y)) = l₁ ++ (c, y) :: l₂ := by
  obtain ⟨l₁, l₂, hsplit⟩ := (lists_entries f).exists_split hc
  have hlists := lists_entries f
  rw [hsplit] at hlists
  exact ⟨l₁, l₂, hsplit, (lists_entries _).eq hlists.erase,
    fun y => (lists_entries _).eq hlists.replace⟩

theorem degree_update_none (hc : f c = some x) :
    degree (update f c none) + 1 = degree f := by
  obtain ⟨l₁, l₂, hsplit, herase, -⟩ := exists_entries_split hc
  rw [degree, degree, hsplit, herase, length_append, length_append, length_cons,
    Nat.add_assoc]

theorem degree_replace (hc : f c = some x) :
    degree (update f c (some y)) = degree f := by
  obtain ⟨l₁, l₂, hsplit, -, hreplace⟩ := exists_entries_split hc
  rw [degree, degree, hsplit, hreplace, length_append, length_append, length_cons,
    length_cons]

theorem degree_le (f : Byte → Option C) : degree f ≤ 256 := by
  have hle := length_filterMap_le (fun b => (f b).map (Prod.mk b)) bytes
  rwa [show bytes.length = 256 from by rw [bytes, length_map, length_range]] at hle

namespace ArtArrays

/-! ## The layouts -/

structure InOrder (a : ArtArrays C) (f : Byte → Option C) : Prop where
  keys : (entries f).map Prod.fst <+: a.keys
  children : ((entries f).map fun e => some e.2) <+: a.children

structure Slotted (a : ArtArrays C) (f : Byte → Option C) : Prop where
  child : ∀ {b pos}, a.slot b = some pos → ∃ x, f b = some x ∧ a.children[pos]? = some (some x)
  vacant : ∀ {b}, a.slot b = none → f b = none
  inj : ∀ {b b' pos}, a.slot b = some pos → a.slot b' = some pos → b = b'
  used : ∀ {pos}, pos < 48 → (a.slots.getLsbD (47 - pos) = true ↔ ∃ b, a.slot b = some pos)
  top : ∀ {i}, 48 ≤ i → i < 64 → a.slots.getLsbD i = true

def Direct (a : ArtArrays C) (f : Byte → Option C) : Prop :=
  ∀ b : Byte, a.children[b.toNat]? = some (f b)

def Layout (a : ArtArrays C) (f : Byte → Option C) : NodeType → Prop
  | .node4 | .node16 => a.InOrder f
  | .node48 => a.Slotted f
  | .node256 => a.Direct f

/-- The arrays hold the children `f`. -/
structure Represents (a : ArtArrays C) (f : Byte → Option C) : Prop where
  num : a.numChildren = BitVec.ofNat 8 (degree f)
  keys_length : a.keys.length = a.type.keysLen
  children_length : a.children.length = a.type.childrenLen
  layout : a.Layout f a.type

def Yields (r : Except Fault (ArtArrays C)) (f : Byte → Option C) (type : NodeType) : Prop :=
  ∃ a', r = .ok a' ∧ a'.Represents f ∧ a'.type = type

variable {a : ArtArrays C}

theorem represents_alloc4 : (alloc .node4 : ArtArrays C).Represents fun _ => none := by
  have hentries : entries (fun _ => none : Byte → Option C) = [] :=
    (lists_entries _).eq ListsMap.nil
  refine ⟨?_, rfl, rfl, ?_, ?_⟩
  · rw [degree, hentries]
    rfl
  · rw [hentries]
    exact nil_prefix
  · rw [hentries]
    exact nil_prefix

theorem Represents.of_type {type : NodeType} (h : a.Represents f) (htype : a.type = type) :
    a.Layout f type ∧ a.keys.length = type.keysLen ∧ a.children.length = type.childrenLen :=
  htype ▸ ⟨h.layout, h.keys_length, h.children_length⟩

theorem Represents.slotted (h : a.Represents f) (htype : a.type = .node48) :
    a.Slotted f ∧ a.keys.length = 256 ∧ a.children.length = 48 := h.of_type htype

theorem Represents.direct (h : a.Represents f) (htype : a.type = .node256) :
    a.Direct f ∧ a.keys.length = 0 ∧ a.children.length = 256 := h.of_type htype

theorem Represents.toNat_num (h : a.Represents f) (hlt : degree f < 256) :
    a.numChildren.toNat = degree f := by
  rw [h.num, BitVec.toNat_ofNat, Nat.mod_eq_of_lt hlt]

theorem Represents.num_add (h : a.Represents f) (hc : f c = none) (x : C) :
    a.numChildren + 1 = BitVec.ofNat 8 (degree (update f c (some x))) := by
  rw [degree_update_some hc, h.num, BitVec.ofNat_add]
  rfl

theorem Represents.num_sub (h : a.Represents f) (hc : f c = some x) :
    a.numChildren - 1 = BitVec.ofNat 8 (degree (update f c none)) := by
  rw [h.num, ← degree_update_none hc, BitVec.ofNat_add]
  exact BitVec.add_sub_cancel _ _

theorem Represents.num_replace (h : a.Represents f) (hc : f c = some x) (y : C) :
    a.numChildren = BitVec.ofNat 8 (degree (update f c (some y))) := by
  rw [h.num, degree_replace hc]

/-! ## 4 and 16 -/

def Small (type : NodeType) : Prop := type = .node4 ∨ type = .node16

variable {type : NodeType} {pos : ℕ} {b : Byte}

theorem Small.keysLen (h : Small type) : type.keysLen = type.childrenLen := by
  rcases h with rfl | rfl <;> rfl

theorem Small.childrenLen_lt (h : Small type) : type.childrenLen < 256 := by
  rcases h with rfl | rfl <;> decide

theorem Small.layout (h : Small type) : a.Layout f type ↔ a.InOrder f := by
  rcases h with rfl | rfl <;> exact Iff.rfl

section

variable (h : a.Represents f) (htype : Small a.type)

include h htype

theorem Represents.inOrder : a.InOrder f := htype.layout.1 h.layout

theorem Represents.degree_le_small : degree f ≤ a.type.childrenLen := by
  have hle := (h.inOrder htype).children.length_le
  rwa [length_map, h.children_length] at hle

theorem Represents.num_small : a.numChildren.toNat = degree f :=
  h.toNat_num ((h.degree_le_small htype).trans_lt htype.childrenLen_lt)

theorem Represents.take_keys : a.keys.take a.numChildren.toNat = (entries f).map Prod.fst := by
  have hpre := prefix_iff_eq_take.1 (h.inOrder htype).keys
  rw [length_map] at hpre
  rw [h.num_small htype, hpre, degree]

theorem Represents.take_children :
    a.children.take a.numChildren.toNat = (entries f).map fun e => some e.2 := by
  have hpre := prefix_iff_eq_take.1 (h.inOrder htype).children
  rw [length_map] at hpre
  rw [h.num_small htype, hpre, degree]

theorem Represents.shiftIn (hroom : degree f < a.type.childrenLen) (hc : f c = none) (x : C) :
    Yields (a.shiftIn ((entries f).findIdx fun e => c < e.1) c x) (update f c (some x)) a.type := by
  have hi : ((entries f).findIdx fun e => c < e.1) ≤ (entries f).length := findIdx_le_length
  obtain ⟨keys, hkeys, hkpre, hklen⟩ := InPlace.insertAt_of_isPrefix Fault.outOfBounds
    (h.inOrder htype).keys (by rwa [length_map, h.keys_length, htype.keysLen])
    (le_of_le_of_eq hi (length_map _).symm) c
  obtain ⟨children, hchildren, hcpre, hclen⟩ := InPlace.insertAt_of_isPrefix Fault.outOfBounds
    (h.inOrder htype).children (by rwa [length_map, h.children_length])
    (le_of_le_of_eq hi (length_map _).symm) (some x)
  rw [length_map] at hkeys hchildren
  refine ⟨{ a with numChildren := a.numChildren + 1, keys := keys, children := children },
    ?_, ⟨h.num_add hc x, hklen.trans h.keys_length, hclen.trans h.children_length, ?_⟩, rfl⟩
  · rw [ArtArrays.shiftIn, h.num_small htype, degree, hkeys, hchildren]
    rfl
  · refine htype.layout.2 ⟨?_, ?_⟩
    · rwa [entries_update_some hc, map_append, map_cons, map_take, map_drop]
    · rwa [entries_update_some hc, map_append, map_cons, map_take, map_drop]

end

theorem Represents.addChild4 (h : a.Represents f) (htype : a.type = .node4)
    (hroom : degree f < 4) (hc : f c = none) (x : C) :
    Yields (a.addChild4 c x) (update f c (some x)) .node4 := by
  have hsmall : Small a.type := Or.inl htype
  rw [ArtArrays.addChild4, h.take_keys hsmall, findIdx_map]
  have hadd := h.shiftIn hsmall (by rwa [htype]) hc x
  rwa [htype] at hadd

theorem Represents.addChild16 (h : a.Represents f) (htype : a.type = .node16)
    (hroom : degree f < 16) (hc : f c = none) (x : C) :
    Yields (a.addChild16 c x) (update f c (some x)) .node16 := by
  have hsmall : Small a.type := Or.inr htype
  have hbits : (a.keys.map fun key => decide (c < key)).take a.numChildren.toNat =
      (entries f).map fun e => decide (c < e.1) := by
    rw [← map_take, h.take_keys hsmall, map_map]
    rfl
  have hidx : (if ((entries f).map fun e => decide (c < e.1)).any id then
        ((entries f).map fun e => decide (c < e.1)).findIdx id
      else a.numChildren.toNat) = (entries f).findIdx fun e => c < e.1 := by
    rw [h.num_small hsmall, findIdx_map, any_map]
    split
    · rfl
    · rename_i hany
      refine (findIdx_eq_length.2 ?_).symm
      simpa using hany
  rw [ArtArrays.addChild16, hbits]
  have hadd := h.shiftIn hsmall (by rwa [htype]) hc x
  rw [← hidx, htype] at hadd
  exact hadd

def Found (a : ArtArrays C) (f : BitVec 8 → Option C) (c : BitVec 8) (x : C) : Prop :=
  ∃ idx pos, a.findChild c = some (idx, pos, x) ∧
    (∀ y, (a.setChild pos y).Represents (update f c (some y))) ∧
    Yields (a.removeChild idx) (update f c none) a.type

theorem Represents.findChild_small (h : a.Represents f) (htype : Small a.type)
    (hc : f c = some x) : a.Found f c x := by
  obtain ⟨l₁, l₂, hsplit, herase, hreplace⟩ := exists_entries_split hc
  have hkeys := (h.inOrder htype).keys
  have hchildren := (h.inOrder htype).children
  rw [hsplit, map_append, map_cons] at hkeys hchildren
  have hplace : a.findPlace c = some (l₁.length, l₁.length) := by
    have hidx : (a.keys.take a.numChildren.toNat).findIdx? (· == c) = some l₁.length := by
      have hlists := lists_entries f
      rw [hsplit] at hlists
      have hlt := hlists.lt_of_split.1
      have hnone : l₁.findIdx? ((· == c) ∘ Prod.fst) = none := by
        refine findIdx?_eq_none_iff.2 fun e he => ?_
        exact beq_false_of_ne (hlt e he).ne
      rw [h.take_keys htype, hsplit, findIdx?_map, findIdx?_append, hnone]
      simp [findIdx?_cons]
    rcases htype with htype | htype <;> simp only [findPlace, htype, hidx, Option.map_some]
  have hget : a.children[l₁.length]? = some (some x) := by
    obtain ⟨rest, hrest⟩ := hchildren
    rw [← hrest]
    simp
  refine ⟨l₁.length, l₁.length, ?_, ?_, ?_⟩
  · simp only [findChild, hplace, Option.bind_some, hget, Option.join_some, Option.map_some]
  · intro y
    refine ⟨h.num_replace hc y, h.keys_length, List.length_set.trans h.children_length,
      htype.layout.2 ⟨?_, ?_⟩⟩
    · rwa [hreplace, map_append, map_cons]
    · rw [hreplace, map_append, map_cons]
      have hset := InPlace.set_of_isPrefix hchildren (some y)
      rwa [length_map] at hset
  · obtain ⟨keys, hkeys, hkpre, hklen⟩ := InPlace.eraseAt_of_isPrefix Fault.outOfBounds hkeys
    obtain ⟨children, hchildren, hcpre, hclen⟩ :=
      InPlace.eraseAt_of_isPrefix Fault.outOfBounds hchildren
    rw [← map_cons, ← map_append, length_map, length_map, ← hsplit] at hkeys
    rw [← map_cons (f := fun e : Byte × C => some e.2), ← map_append, length_map,
      length_map, ← hsplit] at hchildren
    refine ⟨{ a with numChildren := a.numChildren - 1, keys := keys, children := children },
      ?_, ⟨h.num_sub hc, hklen.trans h.keys_length, hclen.trans h.children_length, ?_⟩, rfl⟩
    · have hnum := h.num_small htype
      rw [degree] at hnum
      rcases htype with htype | htype <;>
        simp only [removeChild, htype, hnum, hkeys, hchildren] <;> rfl
    · refine htype.layout.2 ⟨?_, ?_⟩
      · rwa [herase, map_append]
      · rwa [herase, map_append]

/-! ## 48 -/

theorem getLsbD_slotBit {idx : ℕ} (h : idx < 48) (i : ℕ) :
    (slotBit idx).getLsbD i = decide (i = 47 - idx) := by
  rw [slotBit, BitVec.getLsbD_shiftLeft, BitVec.getLsbD_one]
  by_cases hi : i = 47 - idx
  · simp [hi]
    omega
  · simp [hi]
    omega

theorem allocSlot_of_free {slots : BitVec 64}
    (htop : ∀ {i}, 48 ≤ i → i < 64 → slots.getLsbD i = true) {p : ℕ}
    (hfree : slots.getLsbD (47 - p) = false) :
    ∃ pos slots', allocSlot slots = .ok (pos, slots') ∧ pos < 48 ∧
      slots.getLsbD (47 - pos) = false ∧
      ∀ i, slots'.getLsbD i = (slots.getLsbD i || decide (i = 47 - pos)) := by
  have hne : ~~~slots ≠ 0 := by
    intro hzero
    have hbit : (~~~slots).getLsbD (47 - p) = false := by
      rw [hzero]
      exact BitVec.getLsbD_zero
    rw [BitVec.getLsbD_not, hfree, decide_eq_true (show 47 - p < 64 by omega)] at hbit
    cases hbit
  have hlt : (~~~slots).clz.toNat < 64 := BitVec.lt_def.1 (BitVec.clz_lt_iff_ne_zero.2 hne)
  have hclz := BitVec.getLsbD_true_clz_of_ne_zero (by decide) hne
  rw [BitVec.getLsbD_not, Bool.and_eq_true, Bool.not_eq_true', decide_eq_true_eq] at hclz
  have hlow : 64 - 1 - (~~~slots).clz.toNat < 48 := by
    by_contra hge
    have hbit := htop (not_lt.1 hge) hclz.1
    rw [hclz.2] at hbit
    cases hbit
  have hpos : 47 - (48 - (64 - (~~~slots).clz.toNat)) = 64 - 1 - (~~~slots).clz.toNat := by omega
  refine ⟨48 - (64 - (~~~slots).clz.toNat), _, if_neg hne, by omega, ?_, ?_⟩
  · rw [hpos]
    exact hclz.2
  · intro i
    rw [BitVec.getLsbD_or, getLsbD_slotBit (by omega)]

theorem allocSlot_of_full {slots : BitVec 64} (hfull : ∀ i < 64, slots.getLsbD i = true) :
    allocSlot slots = .error .undefined := by
  refine if_pos (BitVec.eq_of_getLsbD_eq fun i hi => ?_)
  rw [BitVec.getLsbD_not, hfull i hi, Bool.not_true, Bool.and_false]
  exact BitVec.getLsbD_zero.symm

theorem slot_set {a' : ArtArrays C} {key : Byte} (hlt : c.toNat < a.keys.length)
    (hkeys : a'.keys = a.keys.set c.toNat key) (b : Byte) :
    a'.slot b = if b = c then (if key = 0 then none else some (key.toNat - 1)) else a.slot b := by
  rw [slot, hkeys]
  by_cases hb : b = c
  · rw [if_pos hb, hb, getElem?_set_self hlt]
  · have hne : c.toNat ≠ b.toNat := fun heq => hb (BitVec.eq_of_toNat_eq heq).symm
    rw [if_neg hb, getElem?_set_ne hne, slot]

theorem Slotted.mem_keys (h : a.Slotted f) (hslot : a.slot b = some pos) :
    b ∈ (entries f).map Prod.fst := by
  obtain ⟨x, hx, -⟩ := h.child hslot
  exact (lists_entries f).mem_keys.2 (by simp [hx])

theorem Slotted.slot_lt (h : a.Slotted f) (hlen : a.children.length = 48)
    (hslot : a.slot b = some pos) : pos < 48 := by
  obtain ⟨x, -, hx⟩ := h.child hslot
  rw [← hlen]
  exact (List.getElem?_eq_some_iff.1 hx).1

theorem Slotted.exists_free (h : a.Slotted f) (hlt : degree f < 48) :
    ∃ p < 48, a.slots.getLsbD (47 - p) = false := by
  by_contra hfull
  push Not at hfull
  have howner : ∀ p < 48, ∃ b, a.slot b = some p := by
    intro p hp
    exact (h.used hp).1 (by simpa using hfull p hp)
  choose! owner howner using howner
  have hcard : (Finset.range 48).card ≤ ((entries f).map Prod.fst).toFinset.card := by
    refine Finset.card_le_card_of_injOn owner ?_ ?_
    · intro p hp
      exact mem_toFinset.2 (h.mem_keys (howner p (Finset.mem_range.1 hp)))
    · intro p hp p' hp' heq
      have hp := howner p (Finset.mem_range.1 hp)
      have hp' := howner p' (Finset.mem_range.1 hp')
      rw [heq, hp'] at hp
      exact (Option.some.inj hp).symm
  have hle := hcard.trans (toFinset_card_le _)
  rw [Finset.card_range, length_map] at hle
  exact absurd hlt (not_lt.2 hle)

theorem Slotted.full (h : a.Slotted f) (hlen : a.children.length = 48) (hle : 48 ≤ degree f) :
    ∀ i < 64, a.slots.getLsbD i = true := by
  intro i hi
  by_cases htop : 48 ≤ i
  · exact h.top htop hi
  · have hpos : 47 - (47 - i) = i := by omega
    rw [← hpos]
    refine (h.used (by omega)).2 ?_
    have hslot : ∀ b ∈ ((entries f).map Prod.fst).toFinset, ∃ p ∈ Finset.range 48,
        a.slot b = some p := by
      intro b hb
      rw [mem_toFinset, (lists_entries f).mem_keys] at hb
      cases hs : a.slot b with
      | none => exact absurd (h.vacant hs) hb
      | some p => exact ⟨p, Finset.mem_range.2 (h.slot_lt hlen hs), rfl⟩
    choose! place hplace using hslot
    have hinj : Set.InjOn place ((entries f).map Prod.fst).toFinset := by
      intro b hb b' hb' heq
      have hs := (hplace b hb).2
      rw [heq] at hs
      exact h.inj hs (hplace b' hb').2
    have hcard : (Finset.range 48).card ≤ ((entries f).map Prod.fst).toFinset.card := by
      rw [toFinset_card_of_nodup (lists_entries f).nodup_keys, length_map,
        Finset.card_range]
      exact hle
    obtain ⟨b, hb, heq⟩ := Finset.surj_on_of_inj_on_of_card_le (fun b _ => place b)
      (fun b hb => (hplace b hb).1) (fun b b' hb hb' heq => hinj hb hb' heq) hcard (47 - i)
      (Finset.mem_range.2 (by omega))
    rw [heq]
    exact ⟨b, (hplace b hb).2⟩

theorem Slotted.put (h : a.Slotted f) (hkeys : a.keys.length = 256)
    (hchildren : a.children.length = 48) (hlt : degree f < 48) (hc : f c = none) (x : C) :
    ∃ pos slots, allocSlot a.slots = .ok (pos, slots) ∧ pos < 48 ∧
      ∀ num, ({ a with
        numChildren := num, keys := a.keys.set c.toNat (BitVec.ofNat 8 (pos + 1))
        slots := slots, children := a.children.set pos (some x) } : ArtArrays C).Slotted
          (update f c (some x)) := by
  obtain ⟨p, -, hfree⟩ := h.exists_free hlt
  obtain ⟨pos, slots, halloc, hpos, hunused, hbits⟩ := allocSlot_of_free h.top hfree
  refine ⟨pos, slots, halloc, hpos, fun num => ?_⟩
  have hnot : ∀ b, a.slot b ≠ some pos := by
    intro b hb
    have hbit := (h.used hpos).2 ⟨b, hb⟩
    rw [hunused] at hbit
    cases hbit
  have hkey : (BitVec.ofNat 8 (pos + 1)).toNat = pos + 1 := by
    rw [BitVec.toNat_ofNat, Nat.mod_eq_of_lt (by omega)]
  have hne : BitVec.ofNat 8 (pos + 1) ≠ 0 := by
    intro hzero
    rw [hzero] at hkey
    cases hkey
  set a' : ArtArrays C := { a with
    numChildren := num, keys := a.keys.set c.toNat (BitVec.ofNat 8 (pos + 1))
    slots := slots, children := a.children.set pos (some x) } with ha'
  have hslot : ∀ b, a'.slot b = if b = c then some pos else a.slot b := by
    intro b
    rw [slot_set (by rw [hkeys]; exact c.isLt) rfl b, if_neg hne, hkey, Nat.add_sub_cancel]
  refine ⟨?_, ?_, ?_, ?_, ?_⟩
  · intro b pos' hs
    rw [hslot] at hs
    by_cases hb : b = c
    · rw [if_pos hb, Option.some.injEq] at hs
      rw [hb, update_self, ← hs]
      exact ⟨x, rfl, getElem?_set_self (hchildren ▸ hpos)⟩
    · rw [if_neg hb] at hs
      obtain ⟨x', hf, hx'⟩ := h.child hs
      rw [update_of_ne hb]
      refine ⟨x', hf, ?_⟩
      have hne' : pos ≠ pos' := by
        rintro rfl
        exact hnot b hs
      rwa [getElem?_set_ne hne']
  · intro b hs
    rw [hslot] at hs
    by_cases hb : b = c
    · rw [if_pos hb] at hs
      cases hs
    · rw [if_neg hb] at hs
      rw [update_of_ne hb, h.vacant hs]
  · intro b b' pos' hs hs'
    rw [hslot] at hs hs'
    by_cases hb : b = c <;> by_cases hb' : b' = c
    · rw [hb, hb']
    · rw [if_pos hb] at hs
      rw [if_neg hb', ← hs] at hs'
      exact absurd hs' (hnot b')
    · rw [if_pos hb'] at hs'
      rw [if_neg hb, ← hs'] at hs
      exact absurd hs (hnot b)
    · rw [if_neg hb] at hs
      rw [if_neg hb'] at hs'
      exact h.inj hs hs'
  · intro pos' hpos'
    rw [hbits, Bool.or_eq_true, h.used hpos', decide_eq_true_eq]
    constructor
    · rintro (⟨b, hb⟩ | heq)
      · refine ⟨b, ?_⟩
        rw [hslot, if_neg, hb]
        rintro rfl
        obtain ⟨x', hf, -⟩ := h.child hb
        rw [hc] at hf
        cases hf
      · refine ⟨c, ?_⟩
        rw [hslot, if_pos rfl, show pos = pos' by omega]
    · rintro ⟨b, hb⟩
      rw [hslot] at hb
      by_cases hbc : b = c
      · rw [if_pos hbc, Option.some.injEq] at hb
        exact Or.inr (by rw [hb])
      · rw [if_neg hbc] at hb
        exact Or.inl ⟨b, hb⟩
  · intro i hi hi'
    rw [hbits, h.top hi hi', Bool.true_or]

theorem Slotted.represents (h : a.Slotted f) (htype : a.type = .node48)
    (hnum : a.numChildren = BitVec.ofNat 8 (degree f)) (hkeys : a.keys.length = 256)
    (hchildren : a.children.length = 48) : a.Represents f := by
  refine ⟨hnum, ?_, ?_, ?_⟩ <;> rw [htype]
  · exact hkeys
  · exact hchildren
  · exact h

theorem Represents.addChild48 (h : a.Represents f) (htype : a.type = .node48)
    (hroom : degree f < 48) (hc : f c = none) (x : C) :
    Yields (a.addChild48 c x) (update f c (some x)) .node48 := by
  obtain ⟨hslotted, hkeys, hchildren⟩ := h.slotted htype
  obtain ⟨pos, slots, halloc, hpos, hput⟩ := hslotted.put hkeys hchildren hroom hc x
  refine ⟨{ a with
    numChildren := a.numChildren + 1, keys := a.keys.set c.toNat (BitVec.ofNat 8 (pos + 1))
    slots := slots, children := a.children.set pos (some x) }, ?_,
    (hput _).represents htype (h.num_add hc x) (List.length_set.trans hkeys)
      (List.length_set.trans hchildren), htype⟩
  have hchild := write_eq_ok (hchildren ▸ hpos : pos < a.children.length) (some x)
  have hkey := write_eq_ok (hkeys ▸ c.isLt : c.toNat < a.keys.length) (BitVec.ofNat 8 (pos + 1))
  simp only [ArtArrays.addChild48, halloc, bind, Run.ok_bind, hchild, hkey]
  rfl

theorem slot_eq_some (h : a.slot b = some pos) :
    ∃ key, a.keys[b.toNat]? = some key ∧ key ≠ 0 ∧ key.toNat - 1 = pos := by
  rw [slot] at h
  cases hkey : a.keys[b.toNat]? with
  | none => simp [hkey] at h
  | some key =>
    simp only [hkey] at h
    by_cases hzero : key = 0
    · simp [hzero] at h
    · rw [if_neg hzero, Option.some.injEq] at h
      exact ⟨key, rfl, hzero, h⟩

theorem Slotted.exists_slot (h : a.Slotted f) (hc : f c = some x) :
    ∃ pos, a.slot c = some pos ∧ a.children[pos]? = some (some x) := by
  cases hslot : a.slot c with
  | none =>
    rw [h.vacant hslot] at hc
    cases hc
  | some pos =>
    obtain ⟨x', hx', hget⟩ := h.child hslot
    rw [hc, Option.some.injEq] at hx'
    exact ⟨pos, rfl, hx' ▸ hget⟩

theorem Slotted.set (h : a.Slotted f) (hslot : a.slot c = some pos) (y : C) :
    (a.setChild pos y).Slotted (update f c (some y)) where
  child {b pos'} hs := by
    by_cases hb : b = c
    · have hpos : pos' = pos := by
        rw [hb] at hs
        exact Option.some.inj (hs.symm.trans hslot)
      obtain ⟨x, -, hget⟩ := h.child hslot
      rw [hb, update_self, hpos]
      exact ⟨y, rfl, getElem?_set_self (List.getElem?_eq_some_iff.1 hget).1⟩
    · obtain ⟨x, hx, hget⟩ := h.child hs
      have hne : pos ≠ pos' := by
        rintro rfl
        exact hb (h.inj hs hslot)
      rw [update_of_ne hb]
      exact ⟨x, hx, (getElem?_set_ne hne).trans hget⟩
  vacant {b} hs := by
    have hb : b ≠ c := by
      rintro rfl
      rw [show (a.setChild pos y).slot b = a.slot b from rfl, hslot] at hs
      cases hs
    rw [update_of_ne hb]
    exact h.vacant hs
  inj := h.inj
  used := h.used
  top := h.top

theorem Slotted.free (h : a.Slotted f) (hkeys : a.keys.length = 256) (hslot : a.slot c = some pos)
    (hpos : pos < 48) (num : BitVec 8) :
    ({ a with
      numChildren := num, keys := a.keys.set c.toNat 0, slots := freeSlot a.slots pos
      children := a.children.set pos none } : ArtArrays C).Slotted (update f c none) := by
  set a' : ArtArrays C := { a with
    numChildren := num, keys := a.keys.set c.toNat 0, slots := freeSlot a.slots pos
    children := a.children.set pos none } with ha'
  have hslot' : ∀ b, a'.slot b = if b = c then none else a.slot b := by
    intro b
    rw [slot_set (by rw [hkeys]; exact c.isLt) rfl b, if_pos rfl]
  have hbits : ∀ i, a'.slots.getLsbD i =
      (a.slots.getLsbD i && (decide (i < 64) && !decide (i = 47 - pos))) := by
    intro i
    rw [ha', freeSlot, BitVec.getLsbD_and, BitVec.getLsbD_not, getLsbD_slotBit hpos]
  have hsome : ∀ {b pos'}, a'.slot b = some pos' → b ≠ c ∧ a.slot b = some pos' := by
    intro b pos' hs
    rw [hslot'] at hs
    by_cases hb : b = c
    · rw [if_pos hb] at hs
      cases hs
    · rw [if_neg hb] at hs
      exact ⟨hb, hs⟩
  refine ⟨?_, ?_, ?_, ?_, ?_⟩
  · intro b pos' hs
    obtain ⟨hb, hs⟩ := hsome hs
    obtain ⟨x, hx, hget⟩ := h.child hs
    have hne : pos ≠ pos' := by
      rintro rfl
      exact hb (h.inj hs hslot)
    rw [update_of_ne hb]
    exact ⟨x, hx, (getElem?_set_ne hne).trans hget⟩
  · intro b hs
    by_cases hb : b = c
    · rw [hb, update_self]
    · rw [hslot', if_neg hb] at hs
      rw [update_of_ne hb, h.vacant hs]
  · intro b b' pos' hs hs'
    exact h.inj (hsome hs).2 (hsome hs').2
  · intro pos' hpos'
    rw [hbits, Bool.and_eq_true, h.used hpos']
    constructor
    · rintro ⟨⟨b, hb⟩, hbit⟩
      refine ⟨b, ?_⟩
      rw [hslot', if_neg, hb]
      rintro rfl
      rw [hslot, Option.some.injEq] at hb
      simp [hb] at hbit
    · rintro ⟨b, hb⟩
      obtain ⟨hbc, hs⟩ := hsome hb
      have hne : pos' ≠ pos := fun heq => hbc (h.inj hs (heq ▸ hslot))
      have hbit : 47 - pos' ≠ 47 - pos := by omega
      refine ⟨⟨b, hs⟩, ?_⟩
      simp only [hbit, decide_false, Bool.not_false, Bool.and_true, decide_eq_true_eq]
      omega
  · intro i hi hi'
    have hne : i ≠ 47 - pos := by omega
    rw [hbits, h.top hi hi']
    simp [hi', hne]

theorem Represents.findChild_48 (h : a.Represents f) (htype : a.type = .node48)
    (hc : f c = some x) : a.Found f c x := by
  obtain ⟨hslotted, hkeys, hchildren⟩ := h.slotted htype
  obtain ⟨pos, hslot, hget⟩ := hslotted.exists_slot hc
  have hpos := hslotted.slot_lt hchildren hslot
  refine ⟨c.toNat, pos, ?_, ?_, ?_⟩
  · simp only [findChild, findPlace, htype, hslot, Option.map_some, Option.bind_some, hget,
      Option.join_some]
  · intro y
    exact (hslotted.set hslot y).represents htype (h.num_replace hc y) hkeys
      (List.length_set.trans hchildren)
  · obtain ⟨key, hkey, -, heq⟩ := slot_eq_some hslot
    refine ⟨_, ?_, (hslotted.free hkeys hslot hpos (a.numChildren - 1)).represents htype
      (h.num_sub hc) (List.length_set.trans hkeys) (List.length_set.trans hchildren), rfl⟩
    have hread : read a.keys c.toNat = .ok key := InPlace.read_eq_ok hkey
    have hchild := write_eq_ok (hchildren ▸ hpos : pos < a.children.length) none
    have hzero := write_eq_ok (hkeys ▸ c.isLt : c.toNat < a.keys.length) 0
    simp only [removeChild, htype, bind, hread, Run.ok_bind, heq, hchild, hzero]
    rfl

/-! ## 256 -/

theorem Direct.represents (h : a.Direct f) (htype : a.type = .node256)
    (hnum : a.numChildren = BitVec.ofNat 8 (degree f)) (hkeys : a.keys.length = 0)
    (hchildren : a.children.length = 256) : a.Represents f := by
  refine ⟨hnum, ?_, ?_, ?_⟩ <;> rw [htype]
  · exact hkeys
  · exact hchildren
  · exact h

theorem Direct.set (h : a.Direct f) (hchildren : a.children.length = 256) (num : BitVec 8)
    (v : Option C) :
    ({ a with numChildren := num, children := a.children.set c.toNat v } : ArtArrays C).Direct
      (update f c v) := by
  intro b
  by_cases hb : b = c
  · rw [hb, update_self]
    exact getElem?_set_self (hchildren ▸ c.isLt)
  · rw [update_of_ne hb, ← h b]
    exact getElem?_set_ne fun heq => hb (BitVec.eq_of_toNat_eq heq).symm

theorem Represents.addChild256 (h : a.Represents f) (htype : a.type = .node256)
    (hc : f c = none) (x : C) :
    Yields (a.addChild256 c x) (update f c (some x)) .node256 := by
  obtain ⟨hdirect, hkeys, hchildren⟩ := h.direct htype
  refine ⟨_, ?_, (hdirect.set hchildren (a.numChildren + 1) (some x)).represents htype
    (h.num_add hc x) hkeys (List.length_set.trans hchildren), htype⟩
  have hchild := write_eq_ok (hchildren ▸ c.isLt : c.toNat < a.children.length) (some x)
  simp only [ArtArrays.addChild256, bind, hchild, Run.ok_bind]
  rfl

theorem Represents.findChild_256 (h : a.Represents f) (htype : a.type = .node256)
    (hc : f c = some x) : a.Found f c x := by
  obtain ⟨hdirect, hkeys, hchildren⟩ := h.direct htype
  refine ⟨c.toNat, c.toNat, ?_, ?_, ?_⟩
  · simp only [findChild, findPlace, htype, Option.bind_some, hdirect c, hc, Option.join_some,
      Option.map_some]
  · intro y
    exact (hdirect.set hchildren a.numChildren (some y)).represents htype (h.num_replace hc y)
      hkeys (List.length_set.trans hchildren)
  · refine ⟨_, ?_, (hdirect.set hchildren (a.numChildren - 1) none).represents htype
      (h.num_sub hc) hkeys (List.length_set.trans hchildren), rfl⟩
    have hchild := write_eq_ok (hchildren ▸ c.isLt : c.toNat < a.children.length) none
    simp only [removeChild, htype, bind, hchild, Run.ok_bind]
    rfl

/-! ## Lookup in all layouts -/

theorem Represents.findChild_some (h : a.Represents f) (hc : f c = some x) :
    a.Found f c x := by
  cases htype : a.type with
  | node4 => exact h.findChild_small (Or.inl htype) hc
  | node16 => exact h.findChild_small (Or.inr htype) hc
  | node48 => exact h.findChild_48 htype hc
  | node256 => exact h.findChild_256 htype hc

theorem Represents.findChild_none (h : a.Represents f) (hc : f c = none) :
    a.findChild c = none := by
  have hsmall : Small a.type → a.findPlace c = none := by
    intro htype
    have hidx : (a.keys.take a.numChildren.toNat).findIdx? (· == c) = none := by
      rw [h.take_keys htype, findIdx?_eq_none_iff]
      intro b hb
      refine beq_false_of_ne ?_
      rintro rfl
      exact (lists_entries f).mem_keys.1 hb hc
    rcases htype with htype | htype <;> simp only [findPlace, htype, hidx, Option.map_none]
  cases htype : a.type with
  | node4 => rw [findChild, hsmall (Or.inl htype), Option.bind_none]
  | node16 => rw [findChild, hsmall (Or.inr htype), Option.bind_none]
  | node48 =>
    have hslot : a.slot c = none := by
      by_contra hne
      obtain ⟨pos, hpos⟩ := Option.ne_none_iff_exists'.1 hne
      obtain ⟨x, hx, -⟩ := (h.slotted htype).1.child hpos
      rw [hc] at hx
      cases hx
    simp only [findChild, findPlace, htype, hslot, Option.map_none, Option.bind_none]
  | node256 =>
    simp only [findChild, findPlace, htype, Option.bind_some, (h.direct htype).1 c, hc,
      Option.join_some, Option.map_none]

end ArtArrays

end Art

end PromTCS
