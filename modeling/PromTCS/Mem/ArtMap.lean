import PromTCS.Mem.ArtPrefix

/-!
# The map of a radix tree

`Rep root p n m` says that the node `n`, to which the bytes `p` lead, holds the map `m`. The
bytes of its prefix are not all in the node; the relation knows them, and every key below
the node begins with them.

The root is the only node that may have fewer than two of the children and the prefix leaf,
and its prefix is empty.
-/

namespace PromTCS

open List Function

namespace Art

open PrefixMap ArtArrays

variable {V : Type}

/-- An inner node: `p` leads to it, `q` is its prefix, and `f` are its children. -/
structure NodeAt (root : Bool) (p q : List Byte) (n : ArtHeader V) (a : ArtArrays (ArtNode V))
    (f : Byte → Option (ArtNode V)) : Prop where
  stores : n.Stores q
  root_nil : root = true → p ++ q = []
  path : root = false → p ≠ []
  leaf_key : ∀ {l}, n.prefixLeaf = some l → l.key = p ++ q
  children : a.Represents f
  fits : Fits a.type (degree f)
  branches : root = false → 2 ≤ degree f + n.prefixLeaf.toList.length

inductive Rep : Bool → List Byte → ArtNode V → (List Byte → Option V) → Prop
  | leaf {p : List Byte} {l : ArtLeaf V} (hkey : p <+: l.key) :
      Rep false p (.leaf l) (single l.key l.value)
  | inner {root : Bool} {p q : List Byte} {n : ArtHeader V} {a : ArtArrays (ArtNode V)}
      {f : Byte → Option (ArtNode V)} {ms : Byte → List Byte → Option V}
      (hnode : NodeAt root p q n a f) (hnone : ∀ b, f b = none → ms b = fun _ => none)
      (hsome : ∀ b child, f b = some child → Rep false (p ++ q ++ [b]) child (ms b)) :
      Rep root p (.inner n a) (branch (p ++ q) (n.prefixLeaf.map ArtLeaf.value) ms)

/-- The children `f` of a node hold the maps `ms`. -/
structure Children (p : List Byte) (f : Byte → Option (ArtNode V))
    (ms : Byte → List Byte → Option V) : Prop where
  none : ∀ {b}, f b = none → ms b = fun _ => none
  some : ∀ {b child}, f b = some child → Rep false (p ++ [b]) child (ms b)

variable {root : Bool} {p q key : List Byte} {node : ArtNode V} {n : ArtHeader V}
  {a : ArtArrays (ArtNode V)} {f : Byte → Option (ArtNode V)} {m : List Byte → Option V}
  {ms : Byte → List Byte → Option V}

theorem NodeAt.rep (h : NodeAt root p q n a f) (hms : Children (p ++ q) f ms) :
    Rep root p (.inner n a) (branch (p ++ q) (n.prefixLeaf.map ArtLeaf.value) ms) :=
  .inner h (fun _ => hms.none) fun _ _ => hms.some

theorem NodeAt.withArrays_eq (h : NodeAt root p q n a f) {a' : ArtArrays (ArtNode V)}
    {f' : Byte → Option (ArtNode V)} {arrays : Except Fault (ArtArrays (ArtNode V))}
    (harrays : arrays = .ok a') (hrep : a'.Represents f') (hfits : Fits a'.type (degree f'))
    (hbranches : root = false → 2 ≤ degree f' + n.prefixLeaf.toList.length)
    (hms : Children (p ++ q) f' ms) :
    ∃ node, ArtNode.withArrays n arrays = .ok node ∧
      Rep root p node (branch (p ++ q) (n.prefixLeaf.map ArtLeaf.value) ms) := by
  obtain ⟨n', hcopy, hstores, hleaf⟩ := h.stores.copyHeader
  rw [← hleaf] at hbranches ⊢
  have hnode : NodeAt root p q n' a' f' :=
    ⟨hstores, h.root_nil, h.path, fun hl => h.leaf_key (hleaf ▸ hl), hrep, hfits, hbranches⟩
  refine ⟨.inner n' a', ?_, hnode.rep hms⟩
  simp only [ArtNode.withArrays, bind, hcopy, Run.ok_bind, harrays]
  rfl

theorem Rep.leaf_inv {l : ArtLeaf V} (h : Rep root p (.leaf l) m) :
    p <+: l.key ∧ m = single l.key l.value := by
  cases h with
  | leaf hkey => exact ⟨hkey, rfl⟩

theorem Rep.inner_inv (h : Rep root p (.inner n a) m) :
    ∃ q f ms, NodeAt root p q n a f ∧ Children (p ++ q) f ms ∧
      m = branch (p ++ q) (n.prefixLeaf.map ArtLeaf.value) ms := by
  cases h with
  | @inner _ _ q _ _ f ms hnode hnone hsome =>
    exact ⟨q, f, ms, hnode, ⟨fun hb => hnone _ hb, fun hb => hsome _ _ hb⟩, rfl⟩

theorem Rep.under (h : Rep root p node m) : Under p m := by
  induction h with
  | leaf hkey => exact under_single hkey _
  | @inner root p q n a f ms hnode hnone hsome ih =>
    refine (under_branch fun b => ?_).mono (prefix_append p q)
    cases hb : f b with
    | none =>
      rw [hnone b hb]
      exact fun k hk => absurd rfl hk
    | some child => exact ih b child hb

theorem Children.under (h : Children p f ms) (b : Byte) : Under (p ++ [b]) (ms b) := by
  cases hb : f b with
  | none =>
    rw [h.none hb]
    exact fun k hk => absurd rfl hk
  | some child => exact (h.some hb).under

theorem Children.under_branch (h : Children p f ms) (v : Option V) :
    Under p (branch p v ms) :=
  PrefixMap.under_branch h.under

theorem Children.update (h : Children p f ms) {c : Byte} {child : ArtNode V}
    (hrep : Rep false (p ++ [c]) child m) :
    Children p (Function.update f c (Option.some child)) (Function.update ms c m) where
  none {b} hb := by
    by_cases hbc : b = c
    · rw [hbc, update_self] at hb
      cases hb
    · rw [update_of_ne hbc] at hb ⊢
      exact h.none hb
  some {b child'} hb := by
    by_cases hbc : b = c
    · rw [hbc, update_self, Option.some.injEq] at hb
      rw [hbc, update_self, ← hb]
      exact hrep
    · rw [update_of_ne hbc] at hb ⊢
      exact h.some hb

theorem Children.branch_eq (h : Children p f ms) {v : Option V} {b : Byte} {k : List Byte}
    (hk : ms b k ≠ Option.none) : branch p v ms k = ms b k :=
  branch_of_isPrefix (h.under b k hk)

theorem Rep.fullKey_eq (h : Rep root p node m) (hroot : root = false) :
    ∃ k, node.fullKey = .ok k ∧ m k ≠ none := by
  induction h with
  | @leaf p l hkey => exact ⟨l.key, by rw [ArtNode.fullKey], by simp [single_apply]⟩
  | @inner root p q n a f ms hnode hnone hsome ih =>
    have hms : Children (p ++ q) f ms := ⟨fun hb => hnone _ hb, fun hb => hsome _ _ hb⟩
    rw [ArtNode.fullKey_inner]
    cases hleaf : n.prefixLeaf with
    | some l => exact ⟨l.key, rfl, by simp [hnode.leaf_key hleaf, branch_self]⟩
    | none =>
      have hbranches := hnode.branches hroot
      rw [hleaf] at hbranches
      obtain ⟨b, child, hb, hfirst⟩ :=
        hnode.children.firstChild (Nat.lt_of_lt_of_le Nat.zero_lt_two hbranches)
      obtain ⟨k, hfull, hk⟩ := ih b child hb rfl
      exact ⟨k, by simp only [hfirst, hfull], by rwa [hms.branch_eq hk]⟩

theorem Rep.exists_key (h : Rep false p node m) : ∃ k, m k ≠ none := by
  obtain ⟨k, -, hk⟩ := h.fullKey_eq rfl
  exact ⟨k, hk⟩

theorem NodeAt.exists_not_isPrefix (h : NodeAt false p q n a f) (hms : Children (p ++ q) f ms)
    {b : Byte} {w : List Byte} (hw : p ++ q ++ [b] <+: w) :
    ∃ s, branch (p ++ q) (n.prefixLeaf.map ArtLeaf.value) ms s ≠ none ∧ ¬ w <+: s := by
  cases hleaf : n.prefixLeaf with
  | some l =>
    refine ⟨p ++ q, by simp [branch_self], fun hpre => ?_⟩
    have hle := (hw.trans hpre).length_le
    rw [length_append, length_singleton] at hle
    exact absurd hle (Nat.not_succ_le_self _)
  | none =>
    have hbranches := h.branches rfl
    rw [hleaf] at hbranches
    obtain ⟨b', child, hne, hb'⟩ := exists_ne_of_two_le_degree hbranches b
    obtain ⟨k, hk⟩ := (hms.some hb').exists_key
    refine ⟨k, by rwa [hms.branch_eq hk], fun hpre => hne ?_⟩
    have hget := getElem?_of_isPrefix (hms.under b' k hk)
    rw [getElem?_of_isPrefix (hw.trans hpre), Option.some.injEq] at hget
    exact hget.symm

theorem NodeAt.exists_two_keys (h : NodeAt false p q n a f) (hms : Children (p ++ q) f ms) :
    ∃ s s', s ≠ s' ∧ branch (p ++ q) (n.prefixLeaf.map ArtLeaf.value) ms s ≠ none ∧
      branch (p ++ q) (n.prefixLeaf.map ArtLeaf.value) ms s' ≠ none := by
  have hpos : 0 < degree f := by
    have hbranches := h.branches rfl
    have hle : n.prefixLeaf.toList.length ≤ 1 := by cases n.prefixLeaf <;> simp
    omega
  obtain ⟨b, child, hb⟩ := exists_of_degree_pos hpos
  obtain ⟨s, hs⟩ := (hms.some hb).exists_key
  obtain ⟨s', hs', hnot⟩ := h.exists_not_isPrefix hms (hms.under b s hs)
  refine ⟨s, s', ?_, by rwa [hms.branch_eq hs], hs'⟩
  rintro rfl
  exact hnot prefix_rfl

/-! ## Lookup -/

theorem leafValue_some (l : ArtLeaf V) (key : List Byte) :
    ArtNode.leafValue (some l) key = single l.key l.value key := by
  simp only [ArtNode.leafValue, ArtLeaf.leafMatches, decide_eq_true_eq]
  simp only [single_apply, eq_comm (a := key)]

theorem NodeAt.leafValue_eq (h : NodeAt root p q n a f) (hlen : key.length = (p ++ q).length) :
    ArtNode.leafValue n.prefixLeaf key =
      branch (p ++ q) (n.prefixLeaf.map ArtLeaf.value) ms key := by
  rw [branch_of_length_le hlen.le]
  cases hleaf : n.prefixLeaf with
  | none => simp [ArtNode.leafValue]
  | some l => rw [leafValue_some, single_apply, h.leaf_key hleaf, Option.map_some]

theorem NodeAt.eq_none_of_mismatch (h : NodeAt root p q n a f) (hms : Children (p ++ q) f ms)
    (hcheck : n.checkPrefix key p.length ≠ min n.prefixLen maxPrefixLen) (v : Option V) :
    branch (p ++ q) v ms key = none := by
  refine (hms.under_branch v).eq_none fun hpre => hcheck ?_
  rw [h.stores.checkPrefix_eq_iff]
  obtain ⟨r, rfl⟩ := hpre
  rw [append_assoc, drop_left]
  exact (List.take_prefix _ _).trans (prefix_append _ _)

theorem NodeAt.depth_eq (h : NodeAt root p q n a f) :
    p.length + n.prefixLen = (p ++ q).length := by
  rw [length_append, h.stores.len]

theorem Rep.searchOpt_eq (h : Rep root p node m) (hinner : ∀ l, node ≠ .leaf l)
    (hlen : p.length ≤ key.length) : node.searchOpt key p.length = .ok (m key) := by
  induction h with
  | @leaf p l hkey => exact absurd rfl (hinner l)
  | @inner root p q n a f ms hnode hnone hsome ih =>
    have hms : Children (p ++ q) f ms := ⟨fun hb => hnone _ hb, fun hb => hsome _ _ hb⟩
    rw [ArtNode.searchOpt_inner, hnode.depth_eq]
    by_cases hcheck : n.checkPrefix key p.length = min n.prefixLen maxPrefixLen
    · rw [if_neg (not_not.2 hcheck)]
      cases hget : key[(p ++ q).length]? with
      | none =>
        have hle := List.getElem?_eq_none_iff.1 hget
        by_cases heq : (p ++ q).length = key.length
        · simp only [if_pos heq]
          exact congrArg Except.ok (hnode.leafValue_eq heq.symm)
        · simp only [if_neg heq, branch_of_length_lt (lt_of_le_of_ne hle (Ne.symm heq))]
      | some c =>
        rw [branch_of_getElem? hget]
        cases hc : f c with
        | none => simp only [hnode.children.findChild_none hc, hnone c hc]
        | some child =>
          obtain ⟨idx, pos, hfind, -, -⟩ := hnode.children.findChild_some hc
          simp only [hfind]
          cases child with
          | leaf l =>
            simp only [leafValue_some, (hsome c _ hc).leaf_inv.2]
          | inner n' a' =>
            have hlt := (List.getElem?_eq_some_iff.1 hget).1
            have hrec := ih c _ hc (fun l => nofun) (by
              rw [length_append, length_singleton]
              exact hlt)
            rwa [length_append, length_singleton] at hrec
    · rw [if_pos hcheck, hnode.eq_none_of_mismatch hms hcheck]

end Art

end PromTCS
