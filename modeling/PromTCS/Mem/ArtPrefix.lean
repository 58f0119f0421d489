import PromTCS.Mem.ArtTree

/-!
# The prefix of a node

`n.Stores q` says that the bytes `q` are the prefix of a node: their number is kept, and
the first eight of them. Prefixes are joined when a node loses its only sibling, and split
when a key leaves the way to a node in the middle of its prefix.

The rest of a prefix of more than eight bytes is copied from a key below the node, as many
bytes as there are, so that a rest of more than eight does not fit.
-/

namespace PromTCS

open List

namespace Art

open PrefixMap

variable {V : Type}

namespace ArtHeader

structure Stores (n : ArtHeader V) (q : List Byte) : Prop where
  len : n.prefixLen = q.length
  bytes_length : n.prefixBytes.length = maxPrefixLen
  bytes : q.take maxPrefixLen <+: n.prefixBytes

variable {n child : ArtHeader V} {q q' p key fk : List Byte}

theorem stores_alloc : (alloc : ArtHeader V).Stores [] where
  len := rfl
  bytes_length := length_replicate
  bytes := nil_prefix

theorem Stores.congr {n' : ArtHeader V} (h : n.Stores q) (hlen : n'.prefixLen = n.prefixLen)
    (hbytes : n'.prefixBytes = n.prefixBytes) : n'.Stores q :=
  ⟨hlen.trans h.len, hbytes ▸ h.bytes_length, hbytes ▸ h.bytes⟩

theorem Stores.take_bytes (h : n.Stores q) :
    n.prefixBytes.take (min n.prefixLen maxPrefixLen) = q.take maxPrefixLen := by
  have hpre := prefix_iff_eq_take.1 h.bytes
  rwa [length_take, ← h.len, Nat.min_comm, eq_comm] at hpre

theorem stores_copy {old ys : List Byte} (hold : old.length = maxPrefixLen)
    (hys : q.take maxPrefixLen <+: ys) (hlen : ys.length ≤ maxPrefixLen) :
    ∃ bytes, copy old 0 ys = .ok bytes ∧
      ∀ l, (⟨q.length, bytes, l⟩ : ArtHeader V).Stores q := by
  have hle : ys.length ≤ old.length := hold ▸ hlen
  refine ⟨_, copy_eq_ok hle, fun l => ⟨rfl, ?_, hys.trans (prefix_append _ _)⟩⟩
  rw [length_append, length_drop, Nat.add_sub_cancel' hle, hold]

theorem Stores.copyHeader (h : n.Stores q) :
    ∃ n', n.copyHeader = .ok n' ∧ n'.Stores q ∧ n'.prefixLeaf = n.prefixLeaf := by
  have htake := h.take_bytes
  rw [Nat.min_comm, h.len] at htake
  obtain ⟨bytes, hcopy, hstores⟩ := stores_copy (V := V)
    (stores_alloc (V := V)).bytes_length (prefix_refl (q.take maxPrefixLen))
    (by rw [length_take]; exact Nat.min_le_left _ _)
  refine ⟨⟨q.length, bytes, n.prefixLeaf⟩, ?_, hstores _, rfl⟩
  simp only [ArtHeader.copyHeader, h.len, htake, hcopy, bind, Run.ok_bind]
  rfl

theorem Stores.checkPrefix_eq_iff (h : n.Stores q) (depth : ℕ) :
    n.checkPrefix key depth = min n.prefixLen maxPrefixLen ↔
      q.take maxPrefixLen <+: key.drop depth := by
  have hlen : min n.prefixLen maxPrefixLen = (q.take maxPrefixLen).length := by
    rw [length_take, h.len, Nat.min_comm]
  rw [checkPrefix, h.take_bytes, hlen, commonLen_eq_length_iff]

theorem Stores.checkPrefix_of_le (h : n.Stores q) (hle : n.prefixLen ≤ maxPrefixLen) (depth : ℕ) :
    n.checkPrefix key depth = commonLen q (key.drop depth) := by
  rw [checkPrefix, h.take_bytes, take_of_length_le (h.len ▸ hle)]

/-! ## Joining -/

theorem Stores.joinPrefix (h : n.Stores q) (hchild : child.Stores q') (c : Byte) :
    ∃ n', ArtNode.joinPrefix n child c = .ok n' ∧ n'.Stores (q ++ c :: q') ∧
      n'.prefixLeaf = child.prefixLeaf := by
  have hlen : child.prefixLen + (n.prefixLen + 1) = (q ++ c :: q').length := by
    rw [length_append, length_cons, h.len, hchild.len]
    omega
  by_cases hlt : n.prefixLen < maxPrefixLen
  · -- The byte fits behind `q`, and as much of `q'` as there is room for.
    obtain ⟨sub, hsub⟩ : ∃ sub, sub = min child.prefixLen (maxPrefixLen - (n.prefixLen + 1)) :=
      ⟨_, rfl⟩
    obtain ⟨rest, hrest⟩ := h.bytes
    rw [take_of_length_le (h.len ▸ hlt.le)] at hrest
    obtain ⟨r, rest, rfl⟩ : ∃ r t, rest = r :: t := by
      refine exists_cons_of_ne_nil ?_
      rintro rfl
      have hfull := h.bytes_length
      rw [← hrest, append_nil, ← h.len] at hfull
      exact hlt.ne hfull
    have hwrite : write n.prefixBytes n.prefixLen c = .ok (q ++ c :: rest) := by
      rw [write_eq_ok (by rw [h.bytes_length]; exact hlt), ← hrest, h.len]
      simp
    have hroom : (q ++ c :: rest).length = maxPrefixLen := by
      have hfull := h.bytes_length
      rw [← hrest] at hfull
      simpa using hfull
    have hsubBytes : child.prefixBytes.take sub = q'.take sub := by
      have htake := hchild.take_bytes
      have hle : sub ≤ min child.prefixLen maxPrefixLen := by omega
      rw [← Nat.min_eq_left hle, ← take_take, htake, take_take,
        Nat.min_eq_left (hle.trans (Nat.min_le_right _ _)), Nat.min_eq_left hle]
    have hsubLen : (q'.take sub).length = sub := by
      rw [length_take, ← hchild.len]
      omega
    have hhead : (q ++ c :: rest).take (n.prefixLen + 1) = q ++ [c] := by
      rw [h.len, take_length_add_append, take_succ_cons, take_zero]
    have hcopy : copy (q ++ c :: rest) (n.prefixLen + 1) (q'.take sub) =
        .ok (q ++ c :: q'.take sub ++ (q ++ c :: rest).drop (n.prefixLen + 1 + sub)) := by
      have hfit : n.prefixLen + 1 + (q'.take sub).length ≤ (q ++ c :: rest).length := by
        rw [hsubLen, hroom]
        omega
      rw [copy, InPlace.copy_eq_ok hfit, hhead, hsubLen, append_assoc q, singleton_append]
    have hjoined : (q ++ c :: q'.take sub).length = n.prefixLen + 1 + sub := by
      rw [length_append, length_cons, hsubLen, h.len]
      omega
    have hfirst : (q ++ c :: q').take maxPrefixLen = q ++ c :: q'.take sub := by
      obtain ⟨k, hk⟩ : ∃ k, maxPrefixLen = q.length + (k + 1) := by
        refine ⟨maxPrefixLen - (n.prefixLen + 1), ?_⟩
        rw [← h.len]
        omega
      rw [hk, take_length_add_append, take_succ_cons, hsub, h.len, hk,
        hchild.len, show q.length + (k + 1) - (q.length + 1) = k by omega, Nat.min_comm,
        ← take_take, take_length]
    obtain ⟨bytes, hcopy', hstores⟩ := stores_copy (V := V) hchild.bytes_length
      (hfirst ▸ prefix_rfl :
        (q ++ c :: q').take maxPrefixLen <+: q ++ c :: q'.take sub)
      (by rw [hjoined]; omega)
    refine ⟨⟨_, bytes, child.prefixLeaf⟩, ?_, hstores _, rfl⟩
    have hsub' : (if n.prefixLen + 1 < maxPrefixLen then
        min child.prefixLen (maxPrefixLen - (n.prefixLen + 1)) else 0) = sub := by
      split
      · exact hsub.symm
      · omega
    have hmin : min (n.prefixLen + 1 + sub) maxPrefixLen = (q ++ c :: q'.take sub).length := by
      rw [hjoined]
      omega
    simp only [ArtNode.joinPrefix, if_pos hlt, hsub', bind, hwrite, Run.ok_bind, hsubBytes, hcopy,
      hmin, take_left, hcopy', hlen]
    rfl
  · have hge := not_lt.1 hlt
    have htake := h.take_bytes
    rw [Nat.min_eq_right hge] at htake
    have hfirst : (q ++ c :: q').take maxPrefixLen = q.take maxPrefixLen :=
      take_append_of_le_length (h.len ▸ hge)
    obtain ⟨bytes, hcopy, hstores⟩ := stores_copy (V := V) hchild.bytes_length
      (hfirst ▸ prefix_rfl : (q ++ c :: q').take maxPrefixLen <+: q.take maxPrefixLen)
      (length_take_le _ _)
    refine ⟨⟨_, bytes, child.prefixLeaf⟩, ?_, hstores _, rfl⟩
    have hnil : copy n.prefixBytes n.prefixLen [] = .ok n.prefixBytes := InPlace.copy_nil _ _
    simp only [ArtNode.joinPrefix, if_neg hlt, bind, Run.ok_bind, take_zero, hnil,
      Nat.add_zero, Nat.min_eq_right hge, htake, hcopy, hlen]
    rfl

/-! ## Splitting -/

variable {i : ℕ}

theorem take_rest {xs : List Byte} {j : ℕ} (hpre : p ++ q <+: xs) (hj : j = q.length - (i + 1)) :
    (xs.drop (p.length + i + 1)).take j = q.drop (i + 1) := by
  obtain ⟨r, rfl⟩ := hpre
  rw [Nat.add_assoc, append_assoc, drop_length_add_append]
  by_cases hi : i + 1 ≤ q.length
  · rw [drop_append_of_le_length hi, take_left' (by rw [length_drop, hj])]
  · rw [hj, Nat.sub_eq_zero_of_le (Nat.le_of_not_le hi), take_zero,
      drop_eq_nil_of_le (Nat.le_of_not_le hi)]

theorem read_of_isPrefix {xs : List Byte} {c : Byte} (hpre : p ++ q <+: xs) (hc : q[i]? = some c) :
    read xs (p.length + i) = .ok c := by
  obtain ⟨r, rfl⟩ := hpre
  refine InPlace.read_eq_ok ?_
  have hlt := (List.getElem?_eq_some_iff.1 hc).1
  rw [append_assoc, getElem?_append_right (Nat.le_add_right _ _), Nat.add_sub_cancel_left,
    getElem?_append_left hlt, hc]

theorem Stores.splitRest (h : n.Stores q) (hi : i < q.length)
    (hfk : maxPrefixLen < q.length → p ++ q <+: fk) (hrest : q.length - (i + 1) ≤ maxPrefixLen) :
    ∃ c n', ArtNode.splitRest n fk p.length i = .ok (c, n') ∧ q[i]? = some c ∧
      n'.Stores (q.drop (i + 1)) ∧ n'.prefixLeaf = n.prefixLeaf := by
  have hc : q[i]? = some q[i] := getElem?_eq_getElem hi
  obtain ⟨bytes, hcopy, hstores⟩ := stores_copy (V := V) h.bytes_length
    (List.take_prefix maxPrefixLen (q.drop (i + 1))) (by rwa [length_drop])
  rw [length_drop] at hstores
  refine ⟨q[i], ⟨_, bytes, n.prefixLeaf⟩, ?_, hc, hstores _, rfl⟩
  by_cases hle : q.length ≤ maxPrefixLen
  · have hpre : [] ++ q <+: n.prefixBytes := by
      have hbytes := h.bytes
      rwa [take_of_length_le hle] at hbytes
    have hread := read_of_isPrefix hpre hc
    have htake := take_rest (i := i) hpre rfl
    rw [length_nil, Nat.zero_add] at hread htake
    have hmin : min (maxPrefixLen - i - 1) (q.length - (i + 1)) = q.length - (i + 1) := by omega
    simp only [ArtNode.splitRest, h.len, if_pos hle, bind, hread, Run.ok_bind, hmin, htake, hcopy]
    rfl
  · have hpre := hfk (not_le.1 hle)
    have hread := read_of_isPrefix hpre hc
    have hmin : min (fk.length - p.length - i - 1) (q.length - (i + 1)) = q.length - (i + 1) := by
      have hlen := hpre.length_le
      rw [length_append] at hlen
      omega
    simp only [ArtNode.splitRest, h.len, if_neg hle, bind, hread, Run.ok_bind, hmin,
      take_rest hpre rfl, hcopy]
    rfl

theorem Stores.splitRest_of_long (h : n.Stores q) (hi : i < q.length) (hfk : p ++ q <+: fk)
    (hrest : maxPrefixLen < q.length - (i + 1)) :
    ArtNode.splitRest n fk p.length i = .error .outOfBounds := by
  have hle : ¬ q.length ≤ maxPrefixLen := by omega
  have hread := read_of_isPrefix hfk (getElem?_eq_getElem hi)
  have hmin : min (fk.length - p.length - i - 1) (q.length - (i + 1)) = q.length - (i + 1) := by
    have hlen := hfk.length_le
    rw [length_append] at hlen
    omega
  have hcopy : copy n.prefixBytes 0 (q.drop (i + 1)) = .error .outOfBounds := by
    refine if_neg ?_
    rw [length_drop, h.bytes_length]
    omega
  simp only [ArtNode.splitRest, h.len, if_neg hle, bind, hread, Run.ok_bind, hmin,
    take_rest hfk rfl, hcopy]
  rfl

end ArtHeader

end Art

end PromTCS
