import PromTCS.Lib.PrefixMap
import PromTCS.Mem.ArtResize

/-!
# The radix tree

A node keeps the bytes its keys have in common behind those on the way to it, but only the
first eight of them: the others are read from the key of a leaf below. The value of a key
that ends at a node is in the leaf `prefix_leaf` of the node.

One thread runs, so every lock is got at the first attempt, and the versions are left out
with the locks. A function that writes a node through `node_loc` returns that node.
-/

namespace PromTCS

namespace Art

open PrefixMap (commonLen)

def maxPrefixLen : ℕ := 8

structure ArtLeaf (V : Type) where
  key : List Byte
  value : V

/-- The fields of `art_node` but for those of its children. -/
structure ArtHeader (V : Type) where
  prefixLen : ℕ
  prefixBytes : List Byte
  prefixLeaf : Option (ArtLeaf V)

inductive ArtNode (V : Type)
  | leaf (l : ArtLeaf V)
  | inner (n : ArtHeader V) (a : ArtArrays (ArtNode V))

namespace ArtArrays

theorem sizeOf_lt_of_mem {C : Type} [SizeOf C] (a : ArtArrays C) {x : C}
    (h : some x ∈ a.children) : sizeOf x < sizeOf a := by
  have hlt := List.sizeOf_lt_of_mem h
  cases a
  simp only [Option.some.sizeOf_spec, mk.sizeOf_spec] at hlt ⊢
  omega

theorem mem_of_join {C : Type} {a : ArtArrays C} {pos : ℕ} {x : C}
    (h : a.children[pos]?.join = some x) : some x ∈ a.children :=
  List.mem_of_getElem? (Option.join_eq_some_iff.1 h)

theorem mem_of_findChild {C : Type} {a : ArtArrays C} {c : Byte} {idx pos : ℕ} {x : C}
    (h : a.findChild c = some (idx, pos, x)) : some x ∈ a.children := by
  obtain ⟨e, -, he⟩ := Option.bind_eq_some_iff.1 h
  obtain ⟨x', hx', heq⟩ := Option.map_eq_some_iff.1 he
  simp only [Prod.mk.injEq] at heq
  exact heq.2.2 ▸ mem_of_join hx'

theorem mem_of_firstChild {C : Type} {a : ArtArrays C} {x : C} (h : a.firstChild = some x) :
    some x ∈ a.children := by
  rw [firstChild] at h
  split at h
  · exact mem_of_join h
  · exact mem_of_join h
  · obtain ⟨e, he, hx⟩ := Option.bind_eq_some_iff.1 h
    obtain ⟨b, -, hb⟩ := List.mem_filterMap.1 (List.mem_of_head? he)
    obtain ⟨pos, -, rfl⟩ := Option.map_eq_some_iff.1 hb
    exact mem_of_join hx
  · obtain ⟨y, hy, rfl⟩ := List.exists_of_findSome?_eq_some h
    exact hy

end ArtArrays

variable {V : Type}

namespace ArtHeader

/-- `alloc_node` -/
def alloc : ArtHeader V where
  prefixLen := 0
  prefixBytes := List.replicate maxPrefixLen 0
  prefixLeaf := none

def copyHeader (src : ArtHeader V) : Except Fault (ArtHeader V) := do
  let new : ArtHeader V := alloc
  let bytes ← copy new.prefixBytes 0 (src.prefixBytes.take (min maxPrefixLen src.prefixLen))
  pure { prefixLen := src.prefixLen, prefixBytes := bytes, prefixLeaf := src.prefixLeaf }

def checkPrefix (n : ArtHeader V) (key : List Byte) (depth : ℕ) : ℕ :=
  commonLen (n.prefixBytes.take (min n.prefixLen maxPrefixLen)) (key.drop depth)

/-- What `value_addr` points to afterwards is returned if it is given. -/
def updatePrefixLeaf (n : ArtHeader V) (key : List Byte) (value : V) (valueAddr : Bool) :
    ArtHeader V × Option V :=
  match n.prefixLeaf with
  | none => ({ n with prefixLeaf := some ⟨key, value⟩ }, if valueAddr then some value else none)
  | some l =>
    if valueAddr then (n, some l.value)
    else ({ n with prefixLeaf := some { l with value := value } }, none)

end ArtHeader

namespace ArtLeaf

def leafMatches (l : ArtLeaf V) (key : List Byte) : Bool := l.key = key

end ArtLeaf

namespace ArtNode

open ArtArrays ArtLeaf ArtHeader

/-! ## Lookup -/

def leafValue (l : Option (ArtLeaf V)) (key : List Byte) : Option V :=
  match l with
  | some l => if l.leafMatches key then some l.value else none
  | none => none

def searchOpt (node : ArtNode V) (key : List Byte) (depth : ℕ) : Except Fault (Option V) :=
  match node with
  | leaf _ => .error .badPointer
  | inner n a =>
    if n.checkPrefix key depth ≠ min n.prefixLen maxPrefixLen then .ok none
    else
      let depth := depth + n.prefixLen
      match key[depth]? with
      | none => .ok (if depth = key.length then leafValue n.prefixLeaf key else none)
      | some c =>
        match _h : a.findChild c with
        | none => .ok none
        | some (_, _, leaf l) => .ok (leafValue (some l) key)
        | some (_, _, inner n' a') => searchOpt (inner n' a') key (depth + 1)
termination_by sizeOf node
decreasing_by
  have hlt := a.sizeOf_lt_of_mem (mem_of_findChild _h)
  simp only [inner.sizeOf_spec] at hlt ⊢
  omega

variable (n : ArtHeader V) (a : ArtArrays (ArtNode V))

theorem searchOpt_inner (key : List Byte)
    (depth : ℕ) :
    searchOpt (inner n a) key depth =
      if n.checkPrefix key depth ≠ min n.prefixLen maxPrefixLen then .ok none
      else match key[depth + n.prefixLen]? with
        | none => .ok (if depth + n.prefixLen = key.length then leafValue n.prefixLeaf key else none)
        | some c =>
          match a.findChild c with
          | none => .ok none
          | some (_, _, leaf l) => .ok (leafValue (some l) key)
          | some (_, _, inner n' a') =>
            searchOpt (inner n' a') key (depth + n.prefixLen + 1) := by
  rw [searchOpt]
  split
  · rfl
  · dsimp only
    split
    · rfl
    · split <;> simp only [*]

def fullKey (node : ArtNode V) : Except Fault (List Byte) :=
  match node with
  | leaf l => .ok l.key
  | inner n a =>
    match n.prefixLeaf with
    | some l => .ok l.key
    | none =>
      match _h : a.firstChild with
      | none => .error .badPointer
      | some next => fullKey next
termination_by sizeOf node
decreasing_by
  have hlt := a.sizeOf_lt_of_mem (mem_of_firstChild _h)
  simp only [inner.sizeOf_spec]
  omega

theorem fullKey_inner :
    fullKey (inner n a) =
      match n.prefixLeaf with
      | some l => .ok l.key
      | none =>
        match a.firstChild with
        | none => .error .badPointer
        | some next => fullKey next := by
  rw [fullKey]
  split
  · simp only [*]
  · split <;> simp only [*]

/-- `prefix_diff` and `full_key` -/
def prefixMismatch (key : List Byte) (depth : ℕ) :
    Except Fault (ℕ × List Byte) :=
  if n.prefixLen ≤ maxPrefixLen then .ok (n.checkPrefix key depth, [])
  else do
    let fk ← fullKey (inner n a)
    pure (commonLen ((key.take (depth + n.prefixLen)).drop depth) (fk.drop depth), fk)

/-! ## Insertion -/

def addLeaf (l : ArtLeaf V) (depth : ℕ) :
    Except Fault (ArtHeader V × ArtArrays (ArtNode V)) :=
  if depth = l.key.length then .ok ({ n with prefixLeaf := some l }, a)
  else do
    let c ← read l.key depth
    let a ← a.addChild c (leaf l)
    pure (n, a)

def updateOrExpand (l : ArtLeaf V) (key : List Byte) (value : V) (depth : ℕ) (valueAddr : Bool) :
    Except Fault (ArtNode V × Option V) :=
  if l.leafMatches key then
    if valueAddr then .ok (leaf l, some l.value) else .ok (leaf { l with value := value }, none)
  else do
    let len := commonLen (l.key.drop depth) (key.drop depth)
    let new : ArtHeader V := alloc
    let bytes ← copy new.prefixBytes 0 ((key.drop depth).take (min len maxPrefixLen))
    let new := { new with prefixLen := len, prefixBytes := bytes }
    let (new, a) ← addLeaf new (ArtArrays.alloc .node4) l (depth + len)
    let (new, a) ← addLeaf new a ⟨key, value⟩ (depth + len)
    pure (inner new a, if valueAddr then some value else none)

def splitRest (n : ArtHeader V) (fullKey : List Byte) (depth prefixLen : ℕ) :
    Except Fault (Byte × ArtHeader V) := do
  let rest := n.prefixLen - (prefixLen + 1)
  if n.prefixLen ≤ maxPrefixLen then
    let c ← read n.prefixBytes prefixLen
    let bytes ← copy n.prefixBytes 0
      ((n.prefixBytes.drop (prefixLen + 1)).take (min (maxPrefixLen - prefixLen - 1) rest))
    pure (c, { n with prefixLen := rest, prefixBytes := bytes })
  else
    let c ← read fullKey (depth + prefixLen)
    let bytes ← copy n.prefixBytes 0 ((fullKey.drop (depth + prefixLen + 1)).take
      (min (fullKey.length - depth - prefixLen - 1) rest))
    pure (c, { n with prefixLen := rest, prefixBytes := bytes })

def insertSplitPrefix (key fullKey : List Byte)
    (value : V) (depth prefixLen : ℕ) : Except Fault (ArtNode V) := do
  let (new, arrays) ← addLeaf alloc (ArtArrays.alloc .node4) ⟨key, value⟩ (depth + prefixLen)
  let bytes ← copy new.prefixBytes 0 (n.prefixBytes.take (min maxPrefixLen n.prefixLen))
  let new := { new with prefixLen := prefixLen, prefixBytes := bytes }
  let (c, n) ← splitRest n fullKey depth prefixLen
  let arrays ← arrays.addChild c (inner n a)
  pure (inner new arrays)

def withArrays (n : ArtHeader V) (arrays : Except Fault (ArtArrays (ArtNode V))) :
    Except Fault (ArtNode V) := do
  let n ← n.copyHeader
  let a ← arrays
  pure (inner n a)

def insertChild (c : Byte) (child : ArtNode V) :
    Except Fault (ArtNode V) :=
  if a.nodeFull then withArrays n (a.growAndInsert c child)
  else do
    let a ← a.addChild c child
    pure (inner n a)

def insertOpt (node : ArtNode V) (key : List Byte) (value : V) (depth : ℕ) (valueAddr : Bool) :
    Except Fault (ArtNode V × Option V) :=
  match node with
  | leaf _ => .error .badPointer
  | inner n a => do
    let (prefixDiff, fullKey) ← prefixMismatch n a key depth
    if prefixDiff ≠ n.prefixLen then
      let node ← insertSplitPrefix n a key fullKey value depth prefixDiff
      pure (node, if valueAddr then some value else none)
    else
      let depth := depth + n.prefixLen
      if depth = key.length then
        let (n, addr) := n.updatePrefixLeaf key value valueAddr
        pure (inner n a, addr)
      else
        let c ← read key depth
        match _h : a.findChild c with
        | none =>
          let node ← insertChild n a c (leaf ⟨key, value⟩)
          pure (node, if valueAddr then some value else none)
        | some (_, pos, leaf l) =>
          let (next, addr) ← updateOrExpand l key value (depth + 1) valueAddr
          pure (inner n (a.setChild pos next), addr)
        | some (_, pos, inner n' a') =>
          let (next, addr) ← insertOpt (inner n' a') key value (depth + 1) valueAddr
          pure (inner n (a.setChild pos next), addr)
termination_by sizeOf node
decreasing_by
  have hlt := a.sizeOf_lt_of_mem (mem_of_findChild _h)
  simp only [inner.sizeOf_spec] at hlt ⊢
  omega

theorem insertOpt_inner (key : List Byte)
    (value : V) (depth : ℕ) (valueAddr : Bool) :
    insertOpt (inner n a) key value depth valueAddr =
      (prefixMismatch n a key depth).bind fun e =>
        if e.1 ≠ n.prefixLen then
          (insertSplitPrefix n a key e.2 value depth e.1).bind fun node =>
            .ok (node, if valueAddr then some value else none)
        else if depth + n.prefixLen = key.length then
          .ok (inner (n.updatePrefixLeaf key value valueAddr).1 a,
            (n.updatePrefixLeaf key value valueAddr).2)
        else (read key (depth + n.prefixLen)).bind fun c =>
          match a.findChild c with
          | none => (insertChild n a c (leaf ⟨key, value⟩)).bind fun node =>
            .ok (node, if valueAddr then some value else none)
          | some (_, pos, leaf l) =>
            (updateOrExpand l key value (depth + n.prefixLen + 1) valueAddr).bind fun e =>
              .ok (inner n (a.setChild pos e.1), e.2)
          | some (_, pos, inner n' a') =>
            (insertOpt (inner n' a') key value (depth + n.prefixLen + 1) valueAddr).bind fun e =>
              .ok (inner n (a.setChild pos e.1), e.2) := by
  rw [insertOpt]
  simp only [bind, pure, Except.pure]
  congr 1
  funext e
  split
  · rfl
  · split
    · rfl
    · congr 1
      funext c
      split <;> simp only [*]

/-! ## Removal -/

/-- `parent` says whether the node has one. -/
def shouldShrink (parent : Bool) : Bool :=
  match a.type with
  | .node4 =>
    parent && if n.prefixLeaf.isNone then a.numChildren.toNat ≤ 2 else a.numChildren.toNat ≤ 1
  | .node16 => a.numChildren.toNat ≤ node16MinSize
  | .node48 => a.numChildren.toNat ≤ node48MinSize
  | .node256 => a.numChildren.toNat ≤ node256MinSize

def shouldCompress (a : ArtArrays (ArtNode V)) (parent : Bool) : Bool :=
  a.type = .node4 && a.numChildren.toNat = 1 && parent

def joinPrefix (n child : ArtHeader V) (c : Byte) : Except Fault (ArtHeader V) := do
  let bytes ← if n.prefixLen < maxPrefixLen then write n.prefixBytes n.prefixLen c
    else .ok n.prefixBytes
  let len := if n.prefixLen < maxPrefixLen then n.prefixLen + 1 else n.prefixLen
  let sub := if len < maxPrefixLen then min child.prefixLen (maxPrefixLen - len) else 0
  let bytes ← copy bytes len (child.prefixBytes.take sub)
  let bytes ← copy child.prefixBytes 0 (bytes.take (min (len + sub) maxPrefixLen))
  pure { child with prefixLen := child.prefixLen + (n.prefixLen + 1), prefixBytes := bytes }

def compressChild (idx : ℕ) :
    Except Fault (ArtNode V) := do
  match ← read a.children idx with
  | none => .error .badPointer
  | some (leaf l) => pure (leaf l)
  | some (inner child a') =>
    let c ← read a.keys idx
    let child ← joinPrefix n child c
    pure (inner child a')

def removeChildAndShrink4 (c : Byte) :
    Except Fault (ArtNode V) :=
  match n.prefixLeaf with
  | some l => .ok (leaf l)
  | none =>
    match (a.keys.take a.numChildren.toNat).findIdx? fun key => key ≠ c with
    | some i => compressChild n a i
    | none => .error .abort

def removeChildAndShrink (c : Byte) :
    Except Fault (ArtNode V) :=
  match a.type with
  | .node4 => removeChildAndShrink4 n a c
  | .node16 => withArrays n (a.removeChildAndShrink16 c)
  | .node48 => withArrays n (a.removeChildAndShrink48 c)
  | .node256 => withArrays n (a.removeChildAndShrink256 c)

def removePrefixLeaf (parent : Bool) :
    Except Fault (ArtNode V) :=
  if shouldCompress a parent then compressChild { n with prefixLeaf := none } a 0
  else .ok (inner { n with prefixLeaf := none } a)

def removeLeafChild (c : Byte) (idx : ℕ)
    (parent : Bool) : Except Fault (ArtNode V) :=
  if shouldShrink n a parent then removeChildAndShrink n a c
  else do
    let a ← a.removeChild idx
    pure (inner n a)

/-- The node, and the leaf that `leaf_addr` points to afterwards. -/
def removeOpt (node : ArtNode V) (key : List Byte) (depth : ℕ) (parent : Bool) :
    Except Fault (ArtNode V × Option (ArtLeaf V)) :=
  match node with
  | leaf _ => .error .badPointer
  | inner n a =>
    if n.checkPrefix key depth ≠ min n.prefixLen maxPrefixLen then .ok (inner n a, none)
    else
      let depth := depth + n.prefixLen
      match key[depth]? with
      | none =>
        if depth = key.length then
          match n.prefixLeaf with
          | none => .ok (inner n a, none)
          | some l =>
            if l.leafMatches key then do
              let node ← removePrefixLeaf n a parent
              pure (node, some l)
            else .ok (inner n a, none)
        else .ok (inner n a, none)
      | some c =>
        match _h : a.findChild c with
        | none => .ok (inner n a, none)
        | some (idx, _, leaf l) =>
          if l.leafMatches key then do
            let node ← removeLeafChild n a c idx parent
            pure (node, some l)
          else .ok (inner n a, none)
        | some (_, pos, inner n' a') => do
          let (next, l) ← removeOpt (inner n' a') key (depth + 1) true
          pure (inner n (a.setChild pos next), l)
termination_by sizeOf node
decreasing_by
  have hlt := a.sizeOf_lt_of_mem (mem_of_findChild _h)
  simp only [inner.sizeOf_spec] at hlt ⊢
  omega

theorem removeOpt_inner (key : List Byte)
    (depth : ℕ) (parent : Bool) :
    removeOpt (inner n a) key depth parent =
      if n.checkPrefix key depth ≠ min n.prefixLen maxPrefixLen then .ok (inner n a, none)
      else match key[depth + n.prefixLen]? with
        | none =>
          if depth + n.prefixLen = key.length then
            match n.prefixLeaf with
            | none => .ok (inner n a, none)
            | some l =>
              if l.leafMatches key then
                (removePrefixLeaf n a parent).bind fun node => .ok (node, some l)
              else .ok (inner n a, none)
          else .ok (inner n a, none)
        | some c =>
          match a.findChild c with
          | none => .ok (inner n a, none)
          | some (idx, _, leaf l) =>
            if l.leafMatches key then
              (removeLeafChild n a c idx parent).bind fun node => .ok (node, some l)
            else .ok (inner n a, none)
          | some (_, pos, inner n' a') =>
            (removeOpt (inner n' a') key (depth + n.prefixLen + 1) true).bind fun e =>
              .ok (inner n (a.setChild pos e.1), e.2) := by
  rw [removeOpt]
  simp only [bind, pure, Except.pure]
  split
  · rfl
  · split
    · rfl
    · split <;> simp only [*]

end ArtNode

/-! ## The tree -/

structure ArtTree (V : Type) where
  root : ArtNode V

namespace ArtTree

def artTreeInit : ArtTree V where
  root := .inner .alloc (.alloc .node4)

variable (t : ArtTree V) (key : List Byte)

def artSearch : Except Fault (Option V) :=
  t.root.searchOpt key 0

def artInsert (value : V) : Except Fault (ArtTree V) := do
  let (root, _) ← t.root.insertOpt key value 0 false
  pure ⟨root⟩

/-- The second part is the `return_value`. -/
def artInsertNoUpdate (value : V) :
    Except Fault (ArtTree V × Option V) := do
  let (root, addr) ← t.root.insertOpt key value 0 true
  pure (⟨root⟩, addr)

def artDelete : Except Fault (ArtTree V × Option V) := do
  let (root, l) ← t.root.removeOpt key 0 false
  pure (⟨root⟩, l.map ArtLeaf.value)

end ArtTree

end Art

end PromTCS
