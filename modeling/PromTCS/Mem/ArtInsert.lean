import PromTCS.Mem.ArtMap

/-!
# Insertion into the radix tree

An insertion ends where the key ends, where a child is missing, at a leaf, or in the middle
of a prefix. In the last case the node gets what is left of its prefix, and if that is more
than eight bytes they are written beyond the end of `prefix`.

`SplitsLong` says when this happens, in terms of the keys that are in the tree.
-/

namespace PromTCS

open List Function

namespace Art

open PrefixMap ArtArrays

variable {V : Type}

/-- Two keys at least begin with the first `i` bytes of `key`, and all that do agree on the
next ten bytes, of which `key` does not have the first. -/
def SplitsLong (m : List Byte → Option V) (key : List Byte) : Prop :=
  ∃ w i, 0 < i ∧ w.length = i + 1 + (maxPrefixLen + 1) ∧ w.take i <+: key ∧
    ¬ w.take (i + 1) <+: key ∧ (∃ s s', s ≠ s' ∧ m s ≠ none ∧ m s' ≠ none ∧ w <+: s ∧ w <+: s') ∧
    ∀ s, m s ≠ none → w.take i <+: s → w <+: s

/-- The value of a key after an insertion, which does not replace a value if there is a
`value_addr`. -/
def kept (valueAddr : Bool) (old : Option V) (value : V) : V :=
  if valueAddr then old.getD value else value

variable {root : Bool} {p q key fk : List Byte} {node : ArtNode V} {n : ArtHeader V}
  {a : ArtArrays (ArtNode V)} {f : Byte → Option (ArtNode V)} {m : List Byte → Option V}
  {ms : Byte → List Byte → Option V}

/-! ## New nodes -/

/-- A new node with `k` children and prefix leaves. -/
structure Building (p : List Byte) (n : ArtHeader V) (a : ArtArrays (ArtNode V))
    (f : Byte → Option (ArtNode V)) (ms : Byte → List Byte → Option V) (k : ℕ) : Prop where
  leaf_key : ∀ {l}, n.prefixLeaf = some l → l.key = p
  children : a.Represents f
  type : a.type = .node4
  below : Children p f ms
  count : degree f + n.prefixLeaf.toList.length = k

theorem building_alloc (p : List Byte) {n : ArtHeader V} (hleaf : n.prefixLeaf = none) :
    Building p n (.alloc .node4) (fun _ => none) (fun _ _ => none) 0 where
  leaf_key h := by
    rw [hleaf] at h
    cases h
  children := represents_alloc4
  type := rfl
  below := ⟨fun _ => rfl, nofun⟩
  count := by
    rw [hleaf, degree_empty]
    rfl

variable {c : Byte} {k i : ℕ} {child : ArtNode V} {l : ArtLeaf V} {w : List Byte}

theorem Building.addChild (h : Building p n a f ms k) (hk : k < 4) (hc : f c = none)
    {m : List Byte → Option V} (hrep : Rep false (p ++ [c]) child m) :
    ∃ a', a.addChild c child = .ok a' ∧
      Building p n a' (update f c (some child)) (update ms c m) (k + 1) := by
  have hdeg : degree f < 4 := Nat.lt_of_le_of_lt (h.count ▸ Nat.le_add_right _ _) hk
  obtain ⟨a', hadd, hrep', htype⟩ := h.children.addChild4 h.type hdeg hc child
  refine ⟨a', by rw [ArtArrays.addChild, h.type]; exact hadd, h.leaf_key, hrep', htype,
    h.below.update hrep, ?_⟩
  rw [degree_update_some hc, ← h.count]
  exact Nat.add_right_comm _ _ _

theorem Building.addLeaf (h : Building p n a f ms k) (hk : k < 4) (hp : p <+: l.key)
    (hleaf : l.key = p → n.prefixLeaf = none) (hchild : ∀ c, l.key[p.length]? = some c → f c = none) :
    ∃ n' a' f' ms', ArtNode.addLeaf n a l p.length = .ok (n', a') ∧
      n'.prefixLen = n.prefixLen ∧ n'.prefixBytes = n.prefixBytes ∧
      Building p n' a' f' ms' (k + 1) ∧
      branch p (n'.prefixLeaf.map ArtLeaf.value) ms' =
        update (branch p (n.prefixLeaf.map ArtLeaf.value) ms) l.key (some l.value) ∧
      (∀ c, l.key[p.length]? ≠ some c → f' c = f c) ∧
      (l.key ≠ p → n'.prefixLeaf = n.prefixLeaf) := by
  rw [ArtNode.addLeaf]
  by_cases hend : l.key = p
  · rw [if_pos (by rw [hend])]
    refine ⟨_, a, f, ms, rfl, rfl, rfl, ⟨?_, h.children, h.type, h.below, ?_⟩, ?_,
      fun _ _ => rfl, fun hne => absurd hend hne⟩
    · intro l' hl'
      rw [← Option.some.inj hl']
      exact hend
    · rw [← h.count, hleaf hend]
      rfl
    · rw [hend, update_branch_self]
      rfl
  · have hlen : p.length ≠ l.key.length := fun hlen => hend (hp.eq_of_length hlen).symm
    have hlt : p.length < l.key.length := lt_of_le_of_ne hp.length_le hlen
    have hget : l.key[p.length]? = some l.key[p.length] := getElem?_eq_getElem hlt
    have hc := hchild _ hget
    have hread : read l.key p.length = .ok l.key[p.length] := InPlace.read_eq_ok hget
    obtain ⟨a', hadd, hbuild⟩ := h.addChild hk hc
      (.leaf (append_singleton_isPrefix hp hget) : Rep false _ (.leaf l) _)
    rw [if_neg hlen]
    refine ⟨n, a', _, _, ?_, rfl, rfl, hbuild, ?_, ?_, fun _ => rfl⟩
    · simp only [bind, hread, Run.ok_bind, hadd]
      rfl
    · rw [update_branch_child hget, h.below.none hc]
      rfl
    · intro c hne
      refine update_of_ne ?_ _ _
      rintro rfl
      exact hne hget

theorem Building.rep (h : Building (p ++ q) n a f ms k) (hk : 2 ≤ k) (hk' : k ≤ 4)
    (hstores : n.Stores q) (hp : p ≠ []) :
    Rep false p (.inner n a) (branch (p ++ q) (n.prefixLeaf.map ArtLeaf.value) ms) := by
  refine NodeAt.rep ⟨hstores, nofun, fun _ => hp, h.leaf_key, h.children, ?_, fun _ => ?_⟩ h.below
  · rw [h.type]
    exact ⟨Nat.zero_le _, (h.count ▸ Nat.le_add_right _ _ : degree f ≤ k).trans hk'⟩
  · rw [h.count]
    exact hk

theorem getElem?_ne_of_commonLen {k k' : List Byte} (hc : k'[commonLen k k']? = some c) :
    k[commonLen k k']? ≠ some c := by
  by_cases hlt : commonLen k k' < k.length
  · rw [← hc]
    exact getElem?_commonLen_ne k k' hlt
  · rw [getElem?_eq_none (not_lt.1 hlt)]
    nofun

theorem updateOrExpand_eq (hl : p <+: l.key) (hp : p <+: key) (hpath : p ≠ []) (value : V)
    (valueAddr : Bool) :
    ∃ next, ArtNode.updateOrExpand l key value p.length valueAddr =
        .ok (next, if valueAddr then
          some (kept valueAddr (single l.key l.value key) value) else none) ∧
      Rep false p next (update (single l.key l.value) key
        (some (kept valueAddr (single l.key l.value key) value))) := by
  rw [ArtNode.updateOrExpand]
  by_cases hmatch : l.key = key
  · rw [ArtLeaf.leafMatches, if_pos (decide_eq_true hmatch), ← hmatch, single_apply, if_pos rfl]
    cases valueAddr with
    | true =>
      refine ⟨.leaf l, rfl, ?_⟩
      rw [update_single_self]
      exact .leaf hl
    | false =>
      refine ⟨.leaf { l with value := value }, rfl, ?_⟩
      rw [update_single_self]
      exact .leaf (l := { l with value := value }) hl
  · have hold : single l.key l.value key = none := by
      rw [single_apply, if_neg (Ne.symm hmatch)]
    have hkept : kept valueAddr (single l.key l.value key) value = value := by
      rw [hold]
      cases valueAddr <;> rfl
    rw [ArtLeaf.leafMatches, if_neg (by rwa [decide_eq_true_eq]), hkept]
    obtain ⟨k', rfl⟩ := hp
    obtain ⟨l', hl'⟩ := hl
    rw [← hl', drop_left, drop_left]
    obtain ⟨q, hq⟩ : ∃ q, q = k'.take (commonLen l' k') := ⟨_, rfl⟩
    have hq' : q = l'.take (commonLen l' k') := by rw [hq, take_commonLen]
    have hqlen : q.length = commonLen l' k' := by
      rw [hq', length_take, Nat.min_eq_left (commonLen_le_left l' k')]
    have hlen : p.length + commonLen l' k' = (p ++ q).length := by
      rw [length_append, hqlen]
    have hget : ∀ r : List Byte, (p ++ r)[(p ++ q).length]? = r[commonLen l' k']? := by
      intro r
      rw [← hlen, getElem?_append_right (Nat.le_add_right _ _), Nat.add_sub_cancel_left]
    have hbytes : k'.take (min (commonLen l' k') maxPrefixLen) = q.take maxPrefixLen := by
      rw [hq, take_take, Nat.min_comm]
    obtain ⟨bytes, hcopy, hstores⟩ := ArtHeader.stores_copy (V := V)
      (ArtHeader.stores_alloc (V := V)).bytes_length (prefix_refl (q.take maxPrefixLen))
      (length_take_le _ _)
    -- The leaf there was is put into the new node, and then the new one.
    obtain ⟨n₁, a₁, f₁, ms₁, hadd₁, hlen₁, hbytes₁, hbuild₁, hmap₁, hother₁, hleaf₁⟩ :=
      (building_alloc (p ++ q) (n := ⟨q.length, bytes, none⟩) rfl).addLeaf (by decide)
        (l := l) (by
          rw [← hl']
          exact (prefix_append_right_inj p).2 (hq' ▸ List.take_prefix _ _))
        (fun _ => rfl) (fun _ _ => rfl)
    obtain ⟨n₂, a₂, f₂, ms₂, hadd₂, hlen₂, hbytes₂, hbuild₂, hmap₂, -, -⟩ :=
      hbuild₁.addLeaf (by decide) (l := ⟨p ++ k', value⟩)
        ((prefix_append_right_inj p).2 (hq ▸ List.take_prefix _ _))
        (fun heq => by
          refine (hleaf₁ fun hlkey => hmatch ?_).trans rfl
          rw [hlkey]
          exact heq.symm)
        (fun c hc => by
          refine (hother₁ c ?_).trans rfl
          rw [← hl', hget]
          rw [hget] at hc
          exact getElem?_ne_of_commonLen hc)
    refine ⟨.inner n₂ a₂, ?_, ?_⟩
    · rw [hqlen] at hadd₁
      simp only [bind, hbytes, hcopy, Run.ok_bind, hlen]
      change (ArtNode.addLeaf ⟨commonLen l' k', bytes, none⟩ _ l _).bind _ = _
      rw [hadd₁, Run.ok_bind]
      change (ArtNode.addLeaf n₁ a₁ _ _).bind _ = _
      rw [hadd₂]
      rfl
    · have hrep := hbuild₂.rep (le_refl 2) (by decide)
        (((hstores none).congr hlen₁ hbytes₁).congr hlen₂ hbytes₂) hpath
      rw [hmap₂, hmap₁] at hrep
      rw [hl', single, ← branch_empty (p ++ q)]
      exact hrep

/-! ## Split prefixes -/

theorem NodeAt.rep_rest (hnode : NodeAt false p q n a f) (hms : Children (p ++ q) f ms)
    {n' : ArtHeader V} (hc : q[i]? = some c) (hstores : n'.Stores (q.drop (i + 1)))
    (hleaf : n'.prefixLeaf = n.prefixLeaf) :
    Rep false (p ++ q.take i ++ [c]) (.inner n' a)
      (branch (p ++ q) (n.prefixLeaf.map ArtLeaf.value) ms) := by
  have hpath : p ++ q.take i ++ [c] ++ q.drop (i + 1) = p ++ q := by
    have hi := (List.getElem?_eq_some_iff.1 hc)
    rw [append_assoc, append_assoc, singleton_append, ← hi.2,
      ← drop_eq_getElem_cons, take_append_drop]
  have hnode' : NodeAt false (p ++ q.take i ++ [c]) (q.drop (i + 1)) n' a f := by
    refine ⟨hstores, nofun, fun _ => by simp, ?_, hnode.children, hnode.fits, ?_⟩
    · intro l hl
      rw [hpath]
      exact hnode.leaf_key (hleaf ▸ hl)
    · rw [hleaf]
      exact hnode.branches
  have hrep := hnode'.rep (show Children _ f ms by rwa [hpath])
  rwa [hpath, hleaf] at hrep

theorem update_eq_branch {v : Option V} (hm : Under (p ++ [c]) m) (hkey : key[p.length]? ≠ some c)
    (value : V) (hbranch : branch p v ms = single key value) :
    branch p v (update ms c m) = update m key (some value) := by
  funext k
  rw [branch_update, hbranch, single_apply, update_apply]
  by_cases hk : k = key
  · rw [if_pos hk, if_pos hk, if_neg (hk ▸ hkey)]
  · rw [if_neg hk, if_neg hk]
    by_cases hget : k[p.length]? = some c
    · rw [if_pos hget]
    · rw [if_neg hget, hm.eq_none fun hpre => hget (getElem?_of_isPrefix hpre)]

theorem addLeaf_of_split (hstores : n.Stores q) (hp : p <+: key) (value : V) :
    ∃ n' a' f' ms' bytes,
      ArtNode.addLeaf .alloc (.alloc .node4) ⟨key, value⟩
        (p.length + commonLen q (key.drop p.length)) = .ok (n', a') ∧
      copy n'.prefixBytes 0 (n.prefixBytes.take (min maxPrefixLen n.prefixLen)) = .ok bytes ∧
      (∀ l, ArtHeader.Stores (V := V) ⟨commonLen q (key.drop p.length), bytes, l⟩
        (q.take (commonLen q (key.drop p.length)))) ∧
      Building (p ++ q.take (commonLen q (key.drop p.length))) n' a' f' ms' 1 ∧
      branch (p ++ q.take (commonLen q (key.drop p.length)))
        (n'.prefixLeaf.map ArtLeaf.value) ms' = single key value ∧
      ∀ c, q[commonLen q (key.drop p.length)]? = some c →
        key[(p ++ q.take (commonLen q (key.drop p.length))).length]? ≠ some c ∧ f' c = none := by
  obtain ⟨k', rfl⟩ := hp
  rw [drop_left]
  have hqlen : (q.take (commonLen q k')).length = commonLen q k' := by
    rw [length_take, Nat.min_eq_left (commonLen_le_left q k')]
  have hlen : p.length + commonLen q k' = (p ++ q.take (commonLen q k')).length := by
    rw [length_append, hqlen]
  have hpre : p ++ q.take (commonLen q k') <+: p ++ k' := by
    rw [take_commonLen]
    exact (prefix_append_right_inj p).2 (List.take_prefix _ _)
  obtain ⟨n', a', f', ms', hadd, -, hbytes', hbuild, hmap, hother, -⟩ :=
    (building_alloc (p ++ q.take (commonLen q k')) (n := (.alloc : ArtHeader V)) rfl).addLeaf
      (by decide) (l := ⟨p ++ k', value⟩) hpre (fun _ => rfl) (fun _ _ => rfl)
  have hold : n'.prefixBytes.length = maxPrefixLen := by
    rw [hbytes']
    exact ArtHeader.stores_alloc.bytes_length
  have htake : n.prefixBytes.take (min maxPrefixLen n.prefixLen) = q.take maxPrefixLen := by
    rw [Nat.min_comm, hstores.take_bytes]
  have hfirst : (q.take (commonLen q k')).take maxPrefixLen <+: q.take maxPrefixLen := by
    rw [take_take, Nat.min_comm, ← take_take]
    exact List.take_prefix _ _
  obtain ⟨bytes, hcopy, hnew⟩ :=
    ArtHeader.stores_copy (V := V) hold hfirst (length_take_le _ _)
  rw [hqlen] at hnew
  rw [hlen, htake]
  refine ⟨n', a', f', ms', bytes, hadd, hcopy, hnew, hbuild, ?_, ?_⟩
  · rw [hmap]
    change update (branch _ none fun _ _ => none) _ _ = _
    rw [branch_empty]
    rfl
  · intro c hc
    have hne : (p ++ k')[(p ++ q.take (commonLen q k')).length]? ≠ some c := by
      rw [← hlen, getElem?_append_right (Nat.le_add_right _ _), Nat.add_sub_cancel_left,
        ← hc]
      exact (getElem?_commonLen_ne q k' (List.getElem?_eq_some_iff.1 hc).1).symm
    exact ⟨hne, hother c hne⟩

section

variable (hnode : NodeAt false p q n a f) (hp : p <+: key)
  (hlt : commonLen q (key.drop p.length) < q.length)

include hnode hp hlt

theorem NodeAt.insertSplitPrefix_eq (hms : Children (p ++ q) f ms)
    (hfk : maxPrefixLen < q.length → p ++ q <+: fk) (value : V)
    (hrest : q.length - (commonLen q (key.drop p.length) + 1) ≤ maxPrefixLen) :
    ∃ node, ArtNode.insertSplitPrefix n a key fk value p.length
        (commonLen q (key.drop p.length)) = .ok node ∧
      Rep false p node (update
        (branch (p ++ q) (n.prefixLeaf.map ArtLeaf.value) ms) key (some value)) := by
  obtain ⟨n₁, a₁, f₁, ms₁, bytes, hadd, hcopy, hstores₁, hbuild₁, hmap₁, hother⟩ :=
    addLeaf_of_split hnode.stores hp value
  obtain ⟨c, n', hsplit, hc, hstores, hleaf⟩ := hnode.stores.splitRest hlt hfk hrest
  obtain ⟨hne, hfree⟩ := hother c hc
  have hbelow := hnode.rep_rest hms hc hstores hleaf
  obtain ⟨a₂, hadd₂, hbuild₂⟩ := hbuild₁.addChild (by decide) hfree hbelow
  have hbuild : Building (p ++ q.take (commonLen q (key.drop p.length)))
      ⟨commonLen q (key.drop p.length), bytes, n₁.prefixLeaf⟩ a₂ _ _ 2 :=
    ⟨hbuild₂.leaf_key, hbuild₂.children, hbuild₂.type, hbuild₂.below, hbuild₂.count⟩
  refine ⟨.inner ⟨commonLen q (key.drop p.length), bytes, n₁.prefixLeaf⟩ a₂, ?_, ?_⟩
  · simp only [ArtNode.insertSplitPrefix, bind, hadd, Run.ok_bind, hcopy, hsplit, hadd₂]
    rfl
  · rw [← update_eq_branch hbelow.under hne value hmap₁]
    exact hbuild.rep (le_refl 2) (by decide) (hstores₁ _) (hnode.path rfl)

theorem NodeAt.insertSplitPrefix_of_long (hfk : p ++ q <+: fk) (value : V)
    (hrest : maxPrefixLen < q.length - (commonLen q (key.drop p.length) + 1)) :
    ArtNode.insertSplitPrefix n a key fk value p.length (commonLen q (key.drop p.length)) =
      .error .outOfBounds := by
  obtain ⟨n₁, a₁, f₁, ms₁, bytes, hadd, hcopy, -⟩ := addLeaf_of_split hnode.stores hp value
  simp only [ArtNode.insertSplitPrefix, bind, hadd, Run.ok_bind, hcopy,
    hnode.stores.splitRest_of_long hlt hfk hrest]
  rfl

end

/-! ## Which insertions split a long prefix -/

theorem take_isPrefix_of_isPrefix {s k : List Byte} (hw : w <+: s) (hp : p <+: s)
    (hi : i ≤ w.length) (hi' : i ≤ p.length) (hk : p.take i <+: k) : w.take i <+: k := by
  have htake : w.take i = p.take i := by
    rw [prefix_iff_eq_take.1 hw, prefix_iff_eq_take.1 hp, take_take, take_take,
      Nat.min_eq_left hi, Nat.min_eq_left hi']
  rwa [htake]

theorem take_isPrefix_take {j : ℕ} (hij : i ≤ j) : w.take i <+: w.take j := by
  rw [← Nat.min_eq_left hij, ← take_take]
  exact List.take_prefix _ _

theorem le_of_parts {s : List Byte} {j : ℕ} (hw : w <+: s) (hp : p <+: s) (hi : i + 1 ≤ w.length)
    (hj : j ≤ p.length) (hkey : p.take j <+: key) (hnot : ¬ w.take (i + 1) <+: key) : j ≤ i := by
  by_contra hlt
  have hij : i + 1 ≤ j := not_le.1 hlt
  exact hnot (take_isPrefix_of_isPrefix hw hp hi (hij.trans hj)
    ((take_isPrefix_take hij).trans hkey))

theorem not_splitsLong_of_subsingleton (h : ∀ s s', m s ≠ none → m s' ≠ none → s = s')
    (key : List Byte) : ¬ SplitsLong m key := by
  rintro ⟨w, i, -, -, -, -, ⟨s, s', hne, hs, hs', -, -⟩, -⟩
  exact hne (h s s' hs hs')

theorem not_splitsLong_empty (key : List Byte) :
    ¬ SplitsLong (fun _ : List Byte => (none : Option V)) key :=
  not_splitsLong_of_subsingleton (fun _ _ hs => absurd rfl hs) key

theorem not_splitsLong_single (k : List Byte) (x : V) (key : List Byte) :
    ¬ SplitsLong (single k x) key :=
  not_splitsLong_of_subsingleton
    (fun _ _ hs hs' => (eq_of_single_ne_none hs).trans (eq_of_single_ne_none hs').symm) key

theorem NodeAt.splitsLong_iff_of_lt (hnode : NodeAt false p q n a f)
    (hms : Children (p ++ q) f ms) (hp : p <+: key)
    (hlt : commonLen q (key.drop p.length) < q.length) :
    SplitsLong (branch (p ++ q) (n.prefixLeaf.map ArtLeaf.value) ms) key ↔
      maxPrefixLen < q.length - (commonLen q (key.drop p.length) + 1) := by
  obtain ⟨k', rfl⟩ := hp
  rw [drop_left] at hlt ⊢
  have hunder := hms.under_branch (n.prefixLeaf.map ArtLeaf.value)
  have htake : (p ++ q).take (p.length + commonLen q k') <+: p ++ k' := by
    rw [take_length_add_append, take_commonLen]
    exact (prefix_append_right_inj p).2 (List.take_prefix _ _)
  have hnot : ¬ (p ++ q).take (p.length + commonLen q k' + 1) <+: p ++ k' := by
    rw [Nat.add_assoc, take_length_add_append, prefix_append_right_inj]
    intro hpre
    refine getElem?_commonLen_ne q k' hlt ?_
    generalize commonLen q k' = i at hlt hpre ⊢
    obtain ⟨r, rfl⟩ := hpre
    rw [getElem?_append_left (by rw [length_take]; omega),
      getElem?_take_of_lt (Nat.lt_succ_self _)]
  have hlen : (p ++ q).length = p.length + q.length := length_append
  constructor
  · rintro ⟨w, i, -, hwlen, hwkey, hwnot, ⟨s, -, -, hs, -, hws, -⟩, hall⟩
    have hps := hunder s hs
    have hi : i = p.length + commonLen q k' := by
      refine le_antisymm ?_ ?_
      · exact le_of_parts hps hws (by omega) (by omega) hwkey hnot
      · exact le_of_parts hws hps (by omega) (by omega) htake hwnot
    by_contra hle
    -- Otherwise `w` goes beyond the prefix, behind which the keys part.
    obtain ⟨r, hr⟩ : p ++ q <+: w := prefix_of_prefix_length_le hps hws (by omega)
    cases r with
    | nil =>
      have hsame := congrArg List.length hr
      rw [append_nil] at hsame
      omega
    | cons b r =>
      obtain ⟨s', hs', hns'⟩ := hnode.exists_not_isPrefix hms
        (⟨r, by rw [append_assoc, singleton_append, hr]⟩ : p ++ q ++ [b] <+: w)
      refine hns' (hall s' hs' ?_)
      exact take_isPrefix_of_isPrefix hws hps (by omega) (by omega)
        ((List.take_prefix _ _).trans (hunder s' hs'))
  · intro hlong
    obtain ⟨j, hj⟩ : ∃ j, j = p.length + commonLen q k' := ⟨_, rfl⟩
    have hpos : 0 < p.length := length_pos_of_ne_nil (hnode.path rfl)
    have hfirst : ∀ i ≤ j + 1, ((p ++ q).take (j + 1 + (maxPrefixLen + 1))).take i =
        (p ++ q).take i := by
      intro i hi
      rw [take_take, Nat.min_eq_left (by omega)]
    obtain ⟨s, s', hne, hs, hs'⟩ := hnode.exists_two_keys hms
    refine ⟨(p ++ q).take (j + 1 + (maxPrefixLen + 1)), j, by omega, ?_, ?_, ?_,
      ⟨s, s', hne, hs, hs', ?_, ?_⟩, ?_⟩
    · rw [length_take]
      omega
    · rw [hfirst j (Nat.le_succ j), hj]
      exact htake
    · rw [hfirst (j + 1) le_rfl, hj]
      exact hnot
    · exact (List.take_prefix _ _).trans (hunder s hs)
    · exact (List.take_prefix _ _).trans (hunder s' hs')
    · exact fun s hs _ => (List.take_prefix _ _).trans (hunder s hs)

section

variable (hnode : NodeAt root p q n a f)
include hnode

theorem NodeAt.splitsLong_iff_of_isPrefix
    (hms : Children (p ++ q) f ms) (hp : p ++ q <+: key) :
    SplitsLong (branch (p ++ q) (n.prefixLeaf.map ArtLeaf.value) ms) key ↔
      ∃ c, key[(p ++ q).length]? = some c ∧ SplitsLong (ms c) key := by
  have hunder := hms.under_branch (n.prefixLeaf.map ArtLeaf.value)
  constructor
  · rintro ⟨w, i, hpos, hwlen, hwkey, hwnot, ⟨s, s', hne, hs, hs', hws, hws'⟩, hall⟩
    have hps := hunder s hs
    have hle : (p ++ q).length ≤ i :=
      le_of_parts hws hps (by omega) le_rfl (by rwa [take_length]) hwnot
    obtain ⟨r, hr⟩ : p ++ q <+: w := prefix_of_prefix_length_le hps hws (by omega)
    obtain ⟨c, r, rfl⟩ : ∃ c t, r = c :: t := by
      refine exists_cons_of_ne_nil ?_
      rintro rfl
      have hsame := congrArg List.length hr
      rw [append_nil] at hsame
      omega
    have hc : p ++ q ++ [c] <+: w := ⟨r, by rw [append_assoc, singleton_append, hr]⟩
    have hlt : (p ++ q).length < i := by
      refine lt_of_le_of_ne hle fun heq => ?_
      cases root with
      | true =>
        rw [hnode.root_nil rfl, length_nil] at heq
        omega
      | false =>
        obtain ⟨s₁, hs₁, hns₁⟩ := hnode.exists_not_isPrefix hms hc
        refine hns₁ (hall s₁ hs₁ ?_)
        exact take_isPrefix_of_isPrefix hws hps (by omega) (by omega)
          ((List.take_prefix _ _).trans (hunder s₁ hs₁))
    have hchild : ∀ {k}, p ++ q ++ [c] <+: k →
        branch (p ++ q) (n.prefixLeaf.map ArtLeaf.value) ms k = ms c k :=
      fun hk => branch_of_isPrefix hk
    have hckey : p ++ q ++ [c] <+: key := by
      have hlen : (p ++ q ++ [c]).length ≤ i := by
        rw [length_append, length_singleton]
        exact hlt
      rw [← take_length (l := p ++ q ++ [c])]
      refine take_isPrefix_of_isPrefix (hc.trans hws) hws le_rfl (hc.length_le) ?_
      exact (take_isPrefix_take hlen).trans hwkey
    refine ⟨c, getElem?_of_isPrefix hckey, w, i, hpos, hwlen, hwkey, hwnot,
      ⟨s, s', hne, ?_, ?_, hws, hws'⟩, ?_⟩
    · rwa [← hchild (hc.trans hws)]
    · rwa [← hchild (hc.trans hws')]
    · intro s₁ hs₁ hpre
      refine hall s₁ ?_ hpre
      rwa [hms.branch_eq hs₁]
  · rintro ⟨c, hget, w, i, hpos, hwlen, hwkey, hwnot, ⟨s, s', hne, hs, hs', hws, hws'⟩, hall⟩
    have hckey : p ++ q ++ [c] <+: key := append_singleton_isPrefix hp hget
    have hcs := hms.under c s hs
    have hle : (p ++ q ++ [c]).length ≤ i :=
      le_of_parts hws hcs (by omega) le_rfl (by rwa [take_length]) hwnot
    refine ⟨w, i, hpos, hwlen, hwkey, hwnot, ⟨s, s', hne, ?_, ?_, hws, hws'⟩, ?_⟩
    · rwa [hms.branch_eq hs]
    · rwa [hms.branch_eq hs']
    · intro s₁ hs₁ hpre
      refine hall s₁ ?_ hpre
      have hcw : p ++ q ++ [c] <+: w.take i :=
        prefix_of_prefix_length_le hcs ((List.take_prefix _ _).trans hws)
          (by rw [length_take]; omega)
      rwa [branch_of_isPrefix (hcw.trans hpre)] at hs₁

/-! ## The insertion -/

theorem NodeAt.prefixMismatch_eq (hms : Children (p ++ q) f ms)
    (key : List Byte) :
    ∃ fk, ArtNode.prefixMismatch n a key p.length = .ok (commonLen q (key.drop p.length), fk) ∧
      (maxPrefixLen < q.length → p ++ q <+: fk) := by
  rw [ArtNode.prefixMismatch]
  by_cases hle : n.prefixLen ≤ maxPrefixLen
  · refine ⟨[], ?_, fun hlt => ?_⟩
    · rw [if_pos hle, hnode.stores.checkPrefix_of_le hle]
    · rw [hnode.stores.len] at hle
      exact absurd hlt (not_lt.2 hle)
  · cases root with
    | true =>
      have hnil := (append_eq_nil_iff.1 (hnode.root_nil rfl)).2
      rw [hnode.stores.len, hnil] at hle
      exact absurd (Nat.zero_le _) hle
    | false =>
      obtain ⟨k, hfull, hk⟩ := (hnode.rep hms).fullKey_eq rfl
      have hpre := hms.under_branch _ k hk
      refine ⟨k, ?_, fun _ => hpre⟩
      obtain ⟨r, rfl⟩ := hpre
      rw [if_neg hle]
      simp only [bind, hfull, Run.ok_bind, hnode.stores.len]
      rw [drop_take, Nat.add_sub_cancel_left, append_assoc, drop_left,
        commonLen_take_append]
      rfl

theorem NodeAt.rep_setChild (hms : Children (p ++ q) f ms)
    {next : ArtNode V} {pos : ℕ} (hc : f c = some child)
    (hset : (a.setChild pos next).Represents (update f c (some next)))
    (hrep : Rep false (p ++ q ++ [c]) next m) :
    Rep root p (.inner n (a.setChild pos next))
      (branch (p ++ q) (n.prefixLeaf.map ArtLeaf.value) (update ms c m)) := by
  have hdeg := degree_replace (y := next) hc
  have hnode' : NodeAt root p q n (a.setChild pos next) (update f c (some next)) :=
    ⟨hnode.stores, hnode.root_nil, hnode.path, hnode.leaf_key, hset, hdeg ▸ hnode.fits,
      hdeg ▸ hnode.branches⟩
  exact hnode'.rep (hms.update hrep)

theorem NodeAt.insertChild_eq (hms : Children (p ++ q) f ms)
    (hc : f c = none) (hrep : Rep false (p ++ q ++ [c]) child m) :
    ∃ node, ArtNode.insertChild n a c child = .ok node ∧
      Rep root p node
        (branch (p ++ q) (n.prefixLeaf.map ArtLeaf.value) (update ms c m)) := by
  have hdeg := degree_update_some (x := child) hc
  rw [ArtNode.insertChild]
  cases hfull : a.nodeFull with
  | true =>
    obtain ⟨a', hgrow, hrep', hfits⟩ := hnode.children.growAndInsert hnode.fits hfull hc child
    refine hnode.withArrays_eq hgrow hrep' (hdeg ▸ hfits) (fun hroot => ?_) (hms.update hrep)
    rw [hdeg]
    exact (hnode.branches hroot).trans (by omega)
  | false =>
    obtain ⟨a', hadd, hrep', -, hfits⟩ := hnode.children.addChild hnode.fits hfull hc child
    have hnode' : NodeAt root p q n a' (update f c (some child)) := by
      refine ⟨hnode.stores, hnode.root_nil, hnode.path, hnode.leaf_key, hrep', hdeg ▸ hfits,
        fun hroot => ?_⟩
      rw [hdeg]
      exact (hnode.branches hroot).trans (by omega)
    refine ⟨.inner n a', ?_, hnode'.rep (hms.update hrep)⟩
    simp only [Bool.false_eq_true, if_false, bind, hadd, Run.ok_bind]
    rfl

theorem NodeAt.withLeaf (hkey : l.key = p ++ q) :
    NodeAt root p q { n with prefixLeaf := some l } a f := by
  refine ⟨hnode.stores.congr rfl rfl, hnode.root_nil, hnode.path, ?_, hnode.children, hnode.fits,
    fun hroot => ?_⟩
  · intro l' hl'
    rw [← Option.some.inj hl']
    exact hkey
  · have hbranches := hnode.branches hroot
    have hle : n.prefixLeaf.toList.length ≤ 1 := by cases n.prefixLeaf <;> simp
    exact hbranches.trans (Nat.add_le_add_left hle _)

theorem NodeAt.updatePrefixLeaf_eq
    (hms : Children (p ++ q) f ms) (value : V) (valueAddr : Bool) :
    (n.updatePrefixLeaf (p ++ q) value valueAddr).2 =
        (if valueAddr then
          some (kept valueAddr (n.prefixLeaf.map ArtLeaf.value) value) else none) ∧
      Rep root p (.inner (n.updatePrefixLeaf (p ++ q) value valueAddr).1 a)
        (branch (p ++ q)
          (some (kept valueAddr (n.prefixLeaf.map ArtLeaf.value) value)) ms) := by
  rw [ArtHeader.updatePrefixLeaf]
  cases hleaf : n.prefixLeaf with
  | none =>
    have hnew := (hnode.withLeaf (l := ⟨p ++ q, value⟩) rfl).rep hms
    cases valueAddr with
    | true => exact ⟨rfl, hnew⟩
    | false => exact ⟨rfl, hnew⟩
  | some l =>
    cases valueAddr with
    | true =>
      have hsame := hnode.rep hms
      rw [hleaf] at hsame
      exact ⟨rfl, hsame⟩
    | false =>
      have hkey : l.key = p ++ q := hnode.leaf_key hleaf
      exact ⟨rfl, (hnode.withLeaf (l := { l with value := value }) hkey).rep hms⟩

end

theorem kept_none (valueAddr : Bool) (value : V) : kept valueAddr none value = value := by
  cases valueAddr <;> rfl

theorem Rep.insertOpt_eq (h : Rep root p node m) (hinner : ∀ l, node ≠ .leaf l) (hp : p <+: key)
    (value : V) (valueAddr : Bool) :
    (SplitsLong m key →
      node.insertOpt key value p.length valueAddr = .error .outOfBounds) ∧
    (¬ SplitsLong m key → ∃ node', node.insertOpt key value p.length valueAddr =
        .ok (node', if valueAddr then some (kept valueAddr (m key) value) else none) ∧
      Rep root p node' (update m key (some (kept valueAddr (m key) value)))) := by
  induction h with
  | @leaf p l hkey => exact absurd rfl (hinner l)
  | @inner root p q n a f ms hnode hnone hsome ih =>
    have hms : Children (p ++ q) f ms := ⟨fun hb => hnone _ hb, fun hb => hsome _ _ hb⟩
    obtain ⟨fk, hmis, hfk⟩ := hnode.prefixMismatch_eq hms key
    rw [ArtNode.insertOpt_inner, hmis, Run.ok_bind, hnode.depth_eq]
    by_cases hlt : commonLen q (key.drop p.length) < q.length
    · -- The key leaves the way to the node in its prefix, so the node is not the root.
      cases root with
      | true =>
        have hnil := (append_eq_nil_iff.1 (hnode.root_nil rfl)).2
        rw [hnil] at hlt
        exact absurd hlt (Nat.not_lt_zero _)
      | false =>
        have hnot : ¬ p ++ q <+: key := by
          intro hpre
          obtain ⟨r, rfl⟩ := hpre
          rw [append_assoc, drop_left,
            commonLen_eq_length_iff.2 (prefix_append q r)] at hlt
          exact lt_irrefl _ hlt
        have hold := (hms.under_branch (n.prefixLeaf.map ArtLeaf.value)).eq_none hnot
        rw [if_pos (hnode.stores.len ▸ hlt.ne), hnode.splitsLong_iff_of_lt hms hp hlt, hold,
          kept_none]
        constructor
        · intro hlong
          rw [hnode.insertSplitPrefix_of_long hp hlt (hfk (by omega)) value hlong]
          rfl
        · intro hshort
          obtain ⟨node', hsplit, hrep⟩ :=
            hnode.insertSplitPrefix_eq hp hlt hms hfk value (not_lt.1 hshort)
          exact ⟨node', by rw [hsplit, Run.ok_bind], hrep⟩
    · have hpre : p ++ q <+: key := by
        obtain ⟨k', rfl⟩ := hp
        rw [drop_left] at hlt
        refine (prefix_append_right_inj p).2 (commonLen_eq_length_iff.1 ?_)
        exact le_antisymm (commonLen_le_left q k') (not_lt.1 hlt)
      have heq : commonLen q (key.drop p.length) = n.prefixLen := by
        rw [hnode.stores.len]
        exact le_antisymm (commonLen_le_left _ _) (not_lt.1 hlt)
      rw [if_neg (not_not.2 heq), hnode.splitsLong_iff_of_isPrefix hms hpre]
      by_cases hend : (p ++ q).length = key.length
      · -- The key ends here.
        obtain rfl := hpre.eq_of_length hend
        rw [if_pos rfl, branch_self, update_branch_self]
        refine ⟨?_, fun _ => ?_⟩
        · rintro ⟨c, hc, -⟩
          simp at hc
        · obtain ⟨haddr, hrep⟩ := hnode.updatePrefixLeaf_eq hms value valueAddr
          exact ⟨_, by rw [haddr], hrep⟩
      · have hkeylt : (p ++ q).length < key.length := lt_of_le_of_ne hpre.length_le hend
        have hget : key[(p ++ q).length]? = some key[(p ++ q).length] :=
          getElem?_eq_getElem hkeylt
        obtain ⟨c, hc⟩ : ∃ c, c = key[(p ++ q).length] := ⟨_, rfl⟩
        rw [← hc] at hget
        have hread : read key (p ++ q).length = .ok c := InPlace.read_eq_ok hget
        have hpath : p ++ q ++ [c] <+: key := append_singleton_isPrefix hpre hget
        have hlen : (p ++ q ++ [c]).length = (p ++ q).length + 1 := by
          rw [length_append, length_singleton]
        have hiff : (∃ b, key[(p ++ q).length]? = some b ∧ SplitsLong (ms b) key) ↔
            SplitsLong (ms c) key := by
          constructor
          · rintro ⟨b, hb, hlong⟩
            rw [hget, Option.some.injEq] at hb
            rwa [hb]
          · exact fun hlong => ⟨c, hget, hlong⟩
        rw [if_neg hend, hread, Run.ok_bind, hiff, branch_of_getElem? hget,
          update_branch_child hget]
        cases hfc : f c with
        | none =>
          rw [hms.none hfc, kept_none]
          refine ⟨fun hlong => absurd hlong (not_splitsLong_empty key), fun _ => ?_⟩
          obtain ⟨node', hins, hrep⟩ := hnode.insertChild_eq hms hfc
            (.leaf hpath : Rep false _ (.leaf ⟨key, value⟩) _)
          refine ⟨node', ?_, hrep⟩
          simp only [hnode.children.findChild_none hfc, hins, Run.ok_bind]
        | some child =>
          obtain ⟨idx, pos, hfind, hset, -⟩ := hnode.children.findChild_some hfc
          simp only [hfind]
          cases child with
          | leaf l =>
            obtain ⟨hlkey, hlmap⟩ := (hms.some hfc).leaf_inv
            rw [hlmap]
            refine ⟨fun hlong => absurd hlong (not_splitsLong_single _ _ key), fun _ => ?_⟩
            obtain ⟨next, hexp, hrep⟩ :=
              updateOrExpand_eq hlkey hpath (by simp) value valueAddr
            rw [hlen] at hexp
            exact ⟨_, by simp only [hexp, Run.ok_bind],
              hnode.rep_setChild hms hfc (hset next) hrep⟩
          | inner n' a' =>
            obtain ⟨hlong, hshort⟩ := ih c _ hfc (fun _ h => by cases h) hpath
            rw [hlen] at hlong hshort
            constructor
            · intro hsplit
              simp only [hlong hsplit]
              rfl
            · intro hsplit
              obtain ⟨next, hins, hrep⟩ := hshort hsplit
              exact ⟨_, by simp only [hins, Run.ok_bind],
                hnode.rep_setChild hms hfc (hset next) hrep⟩

end Art

end PromTCS
