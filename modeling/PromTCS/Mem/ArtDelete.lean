import PromTCS.Mem.ArtInsert

/-!
# Removal from the radix tree

A removal takes out a leaf, and a node that becomes too small with it: the node gives way to
its only child or leaf, or its children move to a smaller layout.

The counter of a node with 256 children is 0, so that the removal of one of them is taken for
that of the last but 38. `DeletesFromFull` says when this happens, in terms of the keys that
are in the tree.
-/

namespace PromTCS

open List Function

namespace Art

open PrefixMap ArtArrays

variable {V : Type}

/-- All bytes follow some first bytes of `key` in one key or another, and `key` is the only
one in which its own does. -/
def DeletesFromFull (m : List Byte → Option V) (key : List Byte) : Prop :=
  m key ≠ none ∧ ∃ i < key.length,
    (∀ b : Byte, ∃ s, m s ≠ none ∧ key.take i ++ [b] <+: s) ∧
    ∀ s, m s ≠ none → key.take (i + 1) <+: s → s = key

variable {root : Bool} {p q key : List Byte} {node : ArtNode V} {n : ArtHeader V}
  {a : ArtArrays (ArtNode V)} {f : Byte → Option (ArtNode V)} {m : List Byte → Option V}
  {ms : Byte → List Byte → Option V} {c : Byte}

/-! ## Which removals are from a full node -/

variable {i : ℕ} {a' : ArtArrays (ArtNode V)} {child : ArtNode V}

theorem le_of_all_bytes (hunder : Under p m) (hi : i ≤ key.length)
    (hall : ∀ b : Byte, ∃ s, m s ≠ none ∧ key.take i ++ [b] <+: s) : p.length ≤ i := by
  by_contra hlt
  have hget : ∀ b : Byte, p[i]? = some b := by
    intro b
    obtain ⟨s, hs, hpre⟩ := hall b
    obtain ⟨r, rfl⟩ := hunder s hs
    have hb := getElem?_of_isPrefix hpre
    rwa [length_take, Nat.min_eq_left hi, getElem?_append_left (not_le.1 hlt)] at hb
  have hzero := (hget 0).symm.trans (hget 1)
  simp at hzero

theorem not_deletesFromFull_self (hunder : Under key m) : ¬ DeletesFromFull m key := by
  rintro ⟨-, i, hi, hall, -⟩
  exact absurd (le_of_all_bytes hunder hi.le hall) (not_le.2 hi)

theorem isPrefix_of_child (hms : Children p f ms) (hkey : ms c key ≠ none) :
    p <+: key ∧ key.take (p.length + 1) = p ++ [c] := by
  have hpre := hms.under c key hkey
  have htake := prefix_iff_eq_take.1 hpre
  rw [length_append, length_singleton] at htake
  exact ⟨(prefix_append p [c]).trans hpre, htake.symm⟩

theorem child_of_take_isPrefix (hms : Children p f ms) (hkey : ms c key ≠ none) {v : Option V}
    (hi : p.length < i) {s : List Byte} (hs : branch p v ms s ≠ none) (hpre : key.take i <+: s) :
    ms c s ≠ none := by
  have htake : p ++ [c] <+: s := by
    rw [← (isPrefix_of_child hms hkey).2]
    exact (take_isPrefix_take hi).trans hpre
  rwa [branch_of_isPrefix htake] at hs

theorem deletesFromFull_iff_of_leaf (hms : Children p f ms) {l : ArtLeaf V}
    (hc : f c = some (.leaf l)) (hl : l.key = key) (v : Option V) :
    DeletesFromFull (branch p v ms) key ↔ degree f = 256 := by
  have hsingle : ms c = single key l.value := by rw [(hms.some hc).leaf_inv.2, hl]
  have hkey : ms c key ≠ none := by simp [hsingle, single_apply]
  obtain ⟨hpre, htake⟩ := isPrefix_of_child hms hkey
  have hlen : p.length < key.length := by
    have hle := (hms.under c key hkey).length_le
    rwa [length_append, length_singleton] at hle
  constructor
  · rintro ⟨-, i, hi, hall, -⟩
    have hle := le_of_all_bytes (hms.under_branch v) hi.le hall
    have heq : i = p.length := by
      by_contra hne
      have hlt : p.length < i := lt_of_le_of_ne hle (Ne.symm hne)
      have hunder : Under key (ms c) := hsingle ▸ under_single prefix_rfl _
      refine absurd (le_of_all_bytes hunder hi.le fun b => ?_) (not_le.2 hi)
      obtain ⟨s, hs, hsb⟩ := hall b
      exact ⟨s, child_of_take_isPrefix hms hkey hlt hs ((prefix_append _ _).trans hsb), hsb⟩
    refine degree_eq_of_all fun b hb => ?_
    obtain ⟨s, hs, hsb⟩ := hall b
    rw [heq, ← prefix_iff_eq_take.1 hpre] at hsb
    rw [branch_of_isPrefix hsb, hms.none hb] at hs
    exact hs rfl
  · intro hdeg
    refine ⟨by rwa [hms.branch_eq hkey], p.length, hlen, fun b => ?_, fun s hs hpre' => ?_⟩
    · obtain ⟨child, hchild⟩ := Option.ne_none_iff_exists'.1 (ne_none_of_degree_eq hdeg b)
      obtain ⟨s, hs⟩ := (hms.some hchild).exists_key
      refine ⟨s, by rwa [hms.branch_eq hs], ?_⟩
      rw [← prefix_iff_eq_take.1 hpre]
      exact hms.under b s hs
    · have hs' := child_of_take_isPrefix hms hkey (Nat.lt_succ_self _) hs hpre'
      rw [hsingle] at hs'
      exact eq_of_single_ne_none hs'

theorem deletesFromFull_iff_of_inner (hms : Children p f ms) {n' : ArtHeader V}
    (hc : f c = some (.inner n' a')) (hget : key[p.length]? = some c) (v : Option V) :
    DeletesFromFull (branch p v ms) key ↔ DeletesFromFull (ms c) key := by
  rw [DeletesFromFull, DeletesFromFull, branch_of_getElem? hget]
  refine and_congr_right fun hkey => exists_congr fun i => and_congr_right fun hi => ?_
  obtain ⟨-, htake⟩ := isPrefix_of_child hms hkey
  constructor
  · rintro ⟨hall, honly⟩
    have hle := le_of_all_bytes (hms.under_branch v) hi.le hall
    have hlt : p.length < i := by
      refine lt_of_le_of_ne hle ?_
      rintro rfl
      -- The child has another key, which also begins with the first bytes of `key`.
      obtain ⟨q', f', ms', hnode', hms', hm⟩ := (hms.some hc).inner_inv
      obtain ⟨s, s', hne, hs, hs'⟩ := hnode'.exists_two_keys hms'
      rw [← hm] at hs hs'
      have hsame : ∀ s₁, ms c s₁ ≠ none → s₁ = key := by
        intro s₁ hs₁
        refine honly s₁ (by rwa [hms.branch_eq hs₁]) ?_
        rw [htake]
        exact hms.under c s₁ hs₁
      exact hne ((hsame s hs).trans (hsame s' hs').symm)
    constructor
    · intro b
      obtain ⟨s, hs, hsb⟩ := hall b
      exact ⟨s, child_of_take_isPrefix hms hkey hlt hs ((prefix_append _ _).trans hsb), hsb⟩
    · intro s hs hpre
      exact honly s (by rwa [hms.branch_eq hs]) hpre
  · rintro ⟨hall, honly⟩
    have hle := le_of_all_bytes (hms.under c) hi.le hall
    rw [length_append, length_singleton] at hle
    constructor
    · intro b
      obtain ⟨s, hs, hsb⟩ := hall b
      exact ⟨s, by rwa [hms.branch_eq hs], hsb⟩
    · intro s hs hpre
      exact honly s (child_of_take_isPrefix hms hkey (Nat.lt_succ_of_lt hle) hs hpre) hpre

/-! ## Nodes that give way to a child -/

theorem Children.erase (h : Children p f ms) (c : Byte) :
    Children p (Function.update f c Option.none) (Function.update ms c fun _ => Option.none) where
  none {b} hb := by
    by_cases hbc : b = c
    · rw [hbc, update_self]
    · rw [update_of_ne hbc] at hb ⊢
      exact h.none hb
  some {b child} hb := by
    by_cases hbc : b = c
    · rw [hbc, update_self] at hb
      cases hb
    · rw [update_of_ne hbc] at hb ⊢
      exact h.some hb

theorem compressChild_eq (hstores : n.Stores q) (hpath : p ≠ [])
    (hrep : Rep false (p ++ q ++ [c]) child m) (hkey : a.keys[i]? = some c)
    (hchild : a.children[i]? = some (some child)) :
    ∃ node', ArtNode.compressChild n a i = .ok node' ∧ Rep false p node' m := by
  have hread : read a.children i = .ok (some child) := InPlace.read_eq_ok hchild
  have hreadKey : read a.keys i = .ok c := InPlace.read_eq_ok hkey
  cases child with
  | leaf l =>
    refine ⟨.leaf l, ?_, ?_⟩
    · simp only [ArtNode.compressChild, bind, hread, Run.ok_bind]
      rfl
    · obtain ⟨hl, hm⟩ := hrep.leaf_inv
      rw [hm]
      rw [append_assoc] at hl
      exact .leaf ((prefix_append p _).trans hl)
  | inner n' a' =>
    obtain ⟨q', f', ms', hnode, hms, hm⟩ := hrep.inner_inv
    obtain ⟨n'', hjoin, hstores', hleaf⟩ := hstores.joinPrefix hnode.stores c
    have hjoined : p ++ (q ++ c :: q') = p ++ q ++ [c] ++ q' := by
      rw [append_assoc, append_assoc, singleton_append]
    have hnode' : NodeAt false p (q ++ c :: q') n'' a' f' := by
      refine ⟨hstores', nofun, fun _ => hpath, ?_, hnode.children, hnode.fits, ?_⟩
      · intro l hl
        rw [hjoined]
        exact hnode.leaf_key (hleaf ▸ hl)
      · rw [hleaf]
        exact hnode.branches
    refine ⟨.inner n'' a', ?_, ?_⟩
    · simp only [ArtNode.compressChild, bind, hread, Run.ok_bind, hreadKey, hjoin]
      rfl
    · have hnew := hnode'.rep (show Children _ f' ms' by rwa [hjoined])
      rwa [hjoined, hleaf, ← hm] at hnew

section

variable (hnode : NodeAt root p q n a f)
include hnode

theorem NodeAt.degree_lt_of_type (htype : a.type ≠ .node256) :
    degree f < 256 := by
  refine Nat.lt_of_le_of_lt hnode.fits.le_max ?_
  cases htype' : a.type with
  | node256 => exact absurd htype' htype
  | _ => decide

theorem NodeAt.removePrefixLeaf_eq (hms : Children (p ++ q) f ms)
    {l : ArtLeaf V} (hleaf : n.prefixLeaf = some l) :
    ∃ node', ArtNode.removePrefixLeaf n a (!root) = .ok node' ∧
      Rep root p node' (branch (p ++ q) none ms) := by
  rw [ArtNode.removePrefixLeaf]
  have hstores : ({ n with prefixLeaf := none } : ArtHeader V).Stores q :=
    hnode.stores.congr rfl rfl
  by_cases hcompress : ArtNode.shouldCompress a (!root) = true
  · rw [if_pos hcompress]
    simp only [ArtNode.shouldCompress, Bool.and_eq_true, decide_eq_true_eq,
      Bool.not_eq_true'] at hcompress
    obtain ⟨⟨htype, hnum⟩, rfl⟩ := hcompress
    have hdeg : degree f = 1 := by
      rw [← hnode.children.toNat_num (hnode.degree_lt_of_type (by simp [htype])), hnum]
    obtain ⟨c, child, hc, hkey, hchild⟩ :=
      hnode.children.firstChild_small (Or.inl htype) (by omega)
    have honly : branch (p ++ q) none ms = ms c :=
      branch_eq_child (hms.under c)
        fun b hb => hms.none (eq_none_of_degree_eq_one hdeg hc hb)
    rw [honly]
    exact compressChild_eq hstores (hnode.path rfl) (hms.some hc) hkey hchild
  · rw [if_neg hcompress]
    refine ⟨_, rfl, ?_⟩
    have hnode' : NodeAt root p q { n with prefixLeaf := none } a f := by
      refine ⟨hstores, hnode.root_nil, hnode.path, nofun, hnode.children, hnode.fits, ?_⟩
      rintro rfl
      have hbranches := hnode.branches rfl
      rw [hleaf] at hbranches
      by_contra hlt
      have hdeg : degree f = 1 := by
        simp only [Option.toList_some, Option.toList_none, length_singleton,
          length_nil] at hbranches hlt
        omega
      refine hcompress ?_
      have hmin := hnode.fits.min_le
      have htype : a.type = .node4 := by
        cases htype : a.type with
        | node4 => rfl
        | node16 => rw [htype, hdeg] at hmin; exact absurd hmin (by decide)
        | node48 => rw [htype, hdeg] at hmin; exact absurd hmin (by decide)
        | node256 => rw [htype, hdeg] at hmin; exact absurd hmin (by decide)
      have hnum := hnode.children.toNat_num (hdeg ▸ by decide)
      simp [ArtNode.shouldCompress, htype, hnum, hdeg]
    exact hnode'.rep hms

/-! ## Removal of a child -/

theorem NodeAt.removeLeafChild_of_full (hc : f c = some child)
    (hfull : degree f = 256) (idx : ℕ) :
    ArtNode.removeLeafChild n a c idx (!root) = .error .undefined := by
  have htype : a.type = .node256 := by
    by_contra hne
    exact (hnode.degree_lt_of_type hne).ne hfull
  -- The counter has 8 bits.
  have hnum : a.numChildren.toNat = 0 := by
    rw [hnode.children.num, hfull]
    rfl
  have hshrink : ArtNode.shouldShrink n a (!root) = true := by
    simp [ArtNode.shouldShrink, htype, hnum]
  obtain ⟨n', hcopy, -, -⟩ := hnode.stores.copyHeader
  have hmove := hnode.children.removeChildAndShrink256_of_full htype (by omega) hc
  rw [ArtNode.removeLeafChild, if_pos hshrink, ArtNode.removeChildAndShrink, htype]
  simp only [ArtNode.withArrays, bind, hcopy, Run.ok_bind, hmove]
  rfl

theorem NodeAt.rep_removeChild (hms : Children (p ++ q) f ms)
    (hc : f c = some child) (hrep : a'.Represents (update f c none))
    (htype : a'.type = a.type) (hmin : minSize a.type < degree f)
    (hbranches : root = false → 3 ≤ degree f + n.prefixLeaf.toList.length) :
    Rep root p (.inner n a') (branch (p ++ q) (n.prefixLeaf.map ArtLeaf.value)
      (update ms c fun _ => none)) := by
  have hdeg := degree_update_none hc
  have hmax := hnode.fits.le_max
  have hfits : Fits a'.type (degree (update f c none)) := by
    rw [htype]
    exact ⟨by omega, by omega⟩
  have hnode' : NodeAt root p q n a' (update f c none) := by
    refine ⟨hnode.stores, hnode.root_nil, hnode.path, hnode.leaf_key, hrep, hfits, fun hroot => ?_⟩
    have hold := hbranches hroot
    omega
  exact hnode'.rep (hms.erase c)

end

theorem NodeAt.removeChildAndShrink4_eq (hnode : NodeAt false p q n a f)
    (hms : Children (p ++ q) f ms) (htype : a.type = .node4) (hc : f c = some child)
    (hcount : degree f + n.prefixLeaf.toList.length = 2) :
    ∃ node', ArtNode.removeChildAndShrink4 n a c = .ok node' ∧
      Rep false p node' (branch (p ++ q) (n.prefixLeaf.map ArtLeaf.value)
        (update ms c fun _ => none)) := by
  rw [ArtNode.removeChildAndShrink4]
  cases hleaf : n.prefixLeaf with
  | some l =>
    rw [hleaf] at hcount
    have hdeg : degree f = 1 := Nat.succ.inj hcount
    have hkey := hnode.leaf_key hleaf
    have hnone : ∀ b, update ms c (fun _ => none) b = fun _ => none := by
      intro b
      by_cases hb : b = c
      · rw [hb, update_self]
      · rw [update_of_ne hb, hms.none (eq_none_of_degree_eq_one hdeg hc hb)]
    refine ⟨.leaf l, rfl, ?_⟩
    rw [branch_eq_value hnone, ← hkey]
    exact .leaf (hkey ▸ prefix_append p q)
  | none =>
    rw [hleaf] at hcount
    obtain ⟨i, b, child', hfind, hkey, hchild, hbc, hb, hothers⟩ :=
      hnode.children.otherChild (Or.inl htype) hcount hc
    have honly : branch (p ++ q) none (update ms c fun _ => none) = ms b := by
      rw [branch_eq_child (a := b) ((hms.erase c).under b) fun b' hb' => ?_,
        update_of_ne hbc]
      by_cases hb'c : b' = c
      · rw [hb'c, update_self]
      · rw [update_of_ne hb'c, hms.none (hothers b' hb' hb'c)]
    simp only [hfind, Option.map_none, honly]
    exact compressChild_eq hnode.stores (hnode.path rfl) (hms.some hb) hkey hchild

theorem NodeAt.removeChildAndShrink_eq (hnode : NodeAt root p q n a f)
    (hms : Children (p ++ q) f ms) (htype : a.type ≠ .node4) (hc : f c = some child)
    (hdeg : degree f = minSize a.type) :
    ∃ node', ArtNode.removeChildAndShrink n a c = .ok node' ∧
      Rep root p node' (branch (p ++ q) (n.prefixLeaf.map ArtLeaf.value)
        (update ms c fun _ => none)) := by
  have hdeg' := degree_update_none hc
  rw [ArtNode.removeChildAndShrink]
  cases htype' : a.type with
  | node4 => exact absurd htype' htype
  | node16 =>
    rw [htype'] at hdeg
    obtain ⟨a', harrays, hrep, hnew⟩ := hnode.children.removeChildAndShrink16 htype' hdeg hc
    rw [hdeg, minSize, node16MinSize] at hdeg'
    refine hnode.withArrays_eq harrays hrep ?_ (fun _ => by omega) (hms.erase c)
    rw [hnew]
    exact ⟨by simp only [minSize]; omega, by simp only [NodeType.childrenLen]; omega⟩
  | node48 =>
    rw [htype'] at hdeg
    obtain ⟨a', harrays, hrep, hnew⟩ := hnode.children.removeChildAndShrink48 htype' hdeg hc
    rw [hdeg, minSize, node48MinSize] at hdeg'
    refine hnode.withArrays_eq harrays hrep ?_ (fun _ => by omega) (hms.erase c)
    rw [hnew]
    exact ⟨by simp only [minSize, node16MinSize]; omega,
      by simp only [NodeType.childrenLen]; omega⟩
  | node256 =>
    rw [htype'] at hdeg
    obtain ⟨a', harrays, hrep, hnew⟩ := hnode.children.removeChildAndShrink256 htype' hdeg hc
    rw [hdeg, minSize, node256MinSize] at hdeg'
    refine hnode.withArrays_eq harrays hrep ?_ (fun _ => by omega) (hms.erase c)
    rw [hnew]
    exact ⟨by simp only [minSize, node48MinSize]; omega,
      by simp only [NodeType.childrenLen]; omega⟩

theorem shouldShrink_eq (htype : a.type ≠ .node4) (parent : Bool) :
    ArtNode.shouldShrink n a parent = decide (a.numChildren.toNat ≤ minSize a.type) := by
  cases htype' : a.type with
  | node4 => exact absurd htype' htype
  | _ =>
    rw [ArtNode.shouldShrink, htype']
    rfl

theorem shouldShrink4_iff (htype : a.type = .node4) (hnum : a.numChildren.toNat = degree f)
    (parent : Bool) :
    ArtNode.shouldShrink n a parent = true ↔
      parent = true ∧ degree f + n.prefixLeaf.toList.length ≤ 2 := by
  simp only [ArtNode.shouldShrink, htype, hnum, Bool.and_eq_true]
  cases n.prefixLeaf with
  | none => simp
  | some l => simp [Nat.succ_le_iff, Nat.lt_succ_iff]

theorem NodeAt.removeLeafChild_eq (hnode : NodeAt root p q n a f) (hms : Children (p ++ q) f ms)
    (hc : f c = some child) {idx : ℕ} (hremove : a.removeChild idx = .ok a')
    (hrep : a'.Represents (update f c none)) (htype : a'.type = a.type)
    (hfull : degree f ≠ 256) :
    ∃ node', ArtNode.removeLeafChild n a c idx (!root) = .ok node' ∧
      Rep root p node' (branch (p ++ q) (n.prefixLeaf.map ArtLeaf.value)
        (update ms c fun _ => none)) := by
  have hnum := hnode.children.toNat_num (lt_of_le_of_ne (degree_le f) hfull)
  have hmin := hnode.fits.min_le
  have hpos : 0 < degree f := (degree_update_none hc) ▸ Nat.succ_pos _
  rw [ArtNode.removeLeafChild]
  by_cases hfour : a.type = .node4
  · by_cases hshrink : ArtNode.shouldShrink n a (!root) = true
    · rw [if_pos hshrink, ArtNode.removeChildAndShrink, hfour]
      obtain ⟨hroot, hle⟩ := (shouldShrink4_iff hfour hnum _).1 hshrink
      obtain rfl : root = false := by simpa using hroot
      exact hnode.removeChildAndShrink4_eq hms hfour hc (le_antisymm hle (hnode.branches rfl))
    · rw [if_neg hshrink, hremove]
      refine ⟨.inner n a', rfl, hnode.rep_removeChild hms hc hrep htype ?_ fun hroot => ?_⟩
      · rw [hfour]
        exact hpos
      · rw [shouldShrink4_iff hfour hnum, hroot] at hshrink
        simp only [Bool.not_false, true_and, not_le] at hshrink
        exact hshrink
  · rw [shouldShrink_eq hfour, hnum]
    by_cases hle : degree f ≤ minSize a.type
    · rw [if_pos (decide_eq_true hle)]
      exact hnode.removeChildAndShrink_eq hms hfour hc (le_antisymm hle hmin)
    · rw [if_neg (by simpa using hle), hremove]
      refine ⟨.inner n a', rfl,
        hnode.rep_removeChild hms hc hrep htype (not_le.1 hle) fun _ => ?_⟩
      have hthree : 3 ≤ minSize a.type := by
        cases hkind : a.type with
        | node4 => exact absurd hkind hfour
        | _ => decide
      omega

/-! ## Removal of a key -/

theorem Rep.removed_none (h : Rep root p node m) (hkey : m key = none)
    {r : Except Fault (ArtNode V × Option (ArtLeaf V))} (hr : r = .ok (node, none)) :
    (DeletesFromFull m key → r = .error .undefined) ∧
    (¬ DeletesFromFull m key → ∃ node', r = .ok (node', (m key).map (ArtLeaf.mk key)) ∧
      Rep root p node' (update m key none)) := by
  refine ⟨fun hfull => absurd hkey hfull.1, fun _ => ⟨node, by rw [hr, hkey]; rfl, ?_⟩⟩
  rwa [← hkey, update_eq_self]

theorem Rep.removeOpt_eq (h : Rep root p node m) (hinner : ∀ l, node ≠ .leaf l)
    (hlen : p.length ≤ key.length) :
    (DeletesFromFull m key → node.removeOpt key p.length (!root) = .error .undefined) ∧
    (¬ DeletesFromFull m key → ∃ node',
      node.removeOpt key p.length (!root) = .ok (node', (m key).map (ArtLeaf.mk key)) ∧
      Rep root p node' (update m key none)) := by
  induction h with
  | @leaf p l hkey => exact absurd rfl (hinner l)
  | @inner root p q n a f ms hnode hnone hsome ih =>
    have hms : Children (p ++ q) f ms := ⟨fun hb => hnone _ hb, fun hb => hsome _ _ hb⟩
    have hrep := hnode.rep hms
    rw [ArtNode.removeOpt_inner, hnode.depth_eq]
    by_cases hcheck : n.checkPrefix key p.length = min n.prefixLen maxPrefixLen
    · rw [if_neg (not_not.2 hcheck)]
      cases hget : key[(p ++ q).length]? with
      | none =>
        have hle := List.getElem?_eq_none_iff.1 hget
        have hvalue : branch (p ++ q) (n.prefixLeaf.map ArtLeaf.value) ms key = _ :=
          branch_of_length_le hle
        by_cases heq : (p ++ q).length = key.length
        · simp only [if_pos heq]
          cases hleaf : n.prefixLeaf with
          | none =>
            rw [hleaf] at hrep hvalue
            exact hrep.removed_none (by rw [hvalue, Option.map_none, ite_self]) rfl
          | some l =>
            rw [hleaf] at hrep hvalue
            have hl := hnode.leaf_key hleaf
            by_cases hmatch : key = p ++ q
            · subst hmatch
              obtain ⟨node', hremove, hrep'⟩ := hnode.removePrefixLeaf_eq hms hleaf
              refine ⟨fun hfull => absurd hfull
                (not_deletesFromFull_self (hms.under_branch _)), fun _ => ⟨node', ?_, ?_⟩⟩
              · simp only [ArtLeaf.leafMatches, hl, decide_true, if_true, hremove,
                  Run.ok_bind, branch_self, Option.map_some]
                rw [← hl]
              · rw [update_branch_self]
                exact hrep'
            · have hne : l.key ≠ key := fun heq => hmatch (heq.symm.trans hl)
              refine hrep.removed_none (by rw [hvalue, if_neg hmatch]) ?_
              simp only [ArtLeaf.leafMatches, hne, decide_false, Bool.false_eq_true, if_false]
        · have hlt := lt_of_le_of_ne hle (Ne.symm heq)
          exact hrep.removed_none (branch_of_length_lt hlt) (by simp only [if_neg heq])
      | some c =>
        have hvalue : branch (p ++ q) (n.prefixLeaf.map ArtLeaf.value) ms key = ms c key :=
          branch_of_getElem? hget
        cases hc : f c with
        | none =>
          refine hrep.removed_none (by rw [hvalue, hnone c hc]) ?_
          simp only [hnode.children.findChild_none hc]
        | some child =>
          obtain ⟨idx, pos, hfind, hset, a', hremove, hrep', htype⟩ :=
            hnode.children.findChild_some hc
          simp only [hfind]
          cases child with
          | leaf l =>
            have hsingle := (hms.some hc).leaf_inv.2
            by_cases hmatch : l.key = key
            · rw [deletesFromFull_iff_of_leaf hms hc hmatch, hvalue,
                update_branch_child hget, hsingle, hmatch]
              simp only [ArtLeaf.leafMatches, hmatch, decide_true, if_true]
              constructor
              · intro hfull
                rw [hnode.removeLeafChild_of_full hc hfull idx]
                rfl
              · intro hfull
                obtain ⟨node', hok, hnew⟩ :=
                  hnode.removeLeafChild_eq hms hc hremove hrep' htype hfull
                refine ⟨node', ?_, ?_⟩
                · rw [hok, Run.ok_bind, single_apply, if_pos rfl, Option.map_some, ← hmatch]
                · rwa [update_single_self, update_eq_self key fun _ => none]
            · refine hrep.removed_none ?_ ?_
              · rw [hvalue, hsingle, single_apply, if_neg (Ne.symm hmatch)]
              · simp only [ArtLeaf.leafMatches, hmatch, decide_false, Bool.false_eq_true,
                  if_false]
          | inner n' a' =>
            have hlt := (List.getElem?_eq_some_iff.1 hget).1
            obtain ⟨hfull, hok⟩ := ih c _ hc (fun _ h => by cases h) (by
              rw [length_append, length_singleton]
              exact hlt)
            rw [length_append, length_singleton] at hfull hok
            rw [deletesFromFull_iff_of_inner hms hc hget, hvalue,
              update_branch_child hget]
            constructor
            · intro hdel
              simp only [Bool.not_false] at hfull
              simp only [hfull hdel]
              rfl
            · intro hdel
              obtain ⟨next, hrec, hnext⟩ := hok hdel
              simp only [Bool.not_false] at hrec
              exact ⟨_, by simp only [hrec, Run.ok_bind],
                hnode.rep_setChild hms hc (hset next) hnext⟩
    · rw [if_pos hcheck]
      exact hrep.removed_none (hnode.eq_none_of_mismatch hms hcheck _) rfl

end Art

end PromTCS
