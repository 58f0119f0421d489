import PromTCS.Base.Endian
import PromTCS.Lib.InPlace
import PromTCS.Lib.Listing
import PromTCS.Lib.Run

/-!
# The nodes of the radix tree

An inner node has room for 4, 16, 48 or 256 children, and each size has its own layout. The
two small ones keep the next bytes in ascending order beside the children. The third keeps
for each of the 256 bytes one more than the place of its child, and a word whose bits say
which places are taken. The last has one place for each byte.

The counter of the children is one byte in every layout, so that it is 0 in a node with 256
children. The type of the children is left open here. An access outside an array ends the
run with a fault.
-/

namespace PromTCS

namespace Art

/-- What ends a run: an access outside an array, `__builtin_clzll` of 0, a pointer that is
not to a node, and `abort`. -/
inductive Fault
  | outOfBounds
  | undefined
  | badPointer
  | abort
deriving DecidableEq, Repr

/-- `xs[i]` -/
abbrev read {α : Type} (xs : List α) (i : ℕ) : Except Fault α :=
  InPlace.read .outOfBounds xs i

/-- `xs[i] = x` -/
abbrev write {α : Type} (xs : List α) (i : ℕ) (x : α) : Except Fault (List α) :=
  InPlace.write .outOfBounds xs i x

/-- `memcpy` or `memmove` of `ys` to place `i`. -/
abbrev copy {α : Type} (xs : List α) (i : ℕ) (ys : List α) : Except Fault (List α) :=
  InPlace.copy .outOfBounds xs i ys

theorem write_eq_ok {α : Type} {xs : List α} {i : ℕ} (h : i < xs.length) (x : α) :
    write xs i x = .ok (xs.set i x) :=
  InPlace.write_eq_ok h x

theorem copy_eq_ok {α : Type} {xs ys : List α} (h : ys.length ≤ xs.length) :
    copy xs 0 ys = .ok (ys ++ xs.drop ys.length) :=
  InPlace.copy_zero_eq_ok h

def bytes : List Byte := (List.range 256).map (BitVec.ofNat 8)

inductive NodeType
  | node4
  | node16
  | node48
  | node256
deriving DecidableEq, Repr

structure ArtArrays (C : Type) where
  type : NodeType
  numChildren : BitVec 8
  keys : List Byte
  slots : BitVec 64
  children : List (Option C)

def node48EmptySlots : BitVec 64 := 0xffff000000000000

def node48GrowSlots : BitVec 64 := 0xffffffff00000000

def node16MinSize : ℕ := 4

def node48MinSize : ℕ := 13

def node256MinSize : ℕ := 38

namespace NodeType

/-- The length of `keys`. -/
def keysLen : NodeType → ℕ
  | node4 => 4
  | node16 => 16
  | node48 => 256
  | node256 => 0

/-- The length of `children`. -/
def childrenLen : NodeType → ℕ
  | node4 => 4
  | node16 => 16
  | node48 => 48
  | node256 => 256

end NodeType

namespace ArtArrays

variable {C : Type}

/-- `alloc_node` -/
def alloc (type : NodeType) : ArtArrays C where
  type := type
  numChildren := 0
  keys := List.replicate type.keysLen 0
  slots := if type = .node48 then node48EmptySlots else 0
  children := List.replicate type.childrenLen none

/-! ## The places of a node of 48 -/

variable (a : ArtArrays C) (c : Byte)

def slot : Option ℕ :=
  match a.keys[c.toNat]? with
  | some key => if key = 0 then none else some (key.toNat - 1)
  | none => none

/-- The bit of a place in `slots`. -/
def slotBit (idx : ℕ) : BitVec 64 := 1#64 <<< (48 - idx - 1)

def allocSlot (slots : BitVec 64) : Except Fault (ℕ × BitVec 64) :=
  if ~~~slots = 0 then .error .undefined
  else
    let idx := 48 - (64 - (~~~slots).clz.toNat)
    .ok (idx, slots ||| slotBit idx)

def freeSlot (slots : BitVec 64) (idx : ℕ) : BitVec 64 :=
  slots &&& ~~~slotBit idx

/-! ## Insertion -/

variable (child : C)

def addChild256 : Except Fault (ArtArrays C) := do
  let children ← write a.children c.toNat (some child)
  pure { a with numChildren := a.numChildren + 1, children := children }

def addChild48 : Except Fault (ArtArrays C) := do
  let (pos, slots) ← allocSlot a.slots
  let children ← write a.children pos (some child)
  let keys ← write a.keys c.toNat (BitVec.ofNat 8 (pos + 1))
  pure { a with
    numChildren := a.numChildren + 1, keys := keys, slots := slots, children := children }

/-- What `add_child16` and `add_child4` do once they know the place. -/
def shiftIn (a : ArtArrays C) (idx : ℕ) (c : Byte) (child : C) : Except Fault (ArtArrays C) := do
  let keys ← InPlace.insertAt .outOfBounds a.keys a.numChildren.toNat idx c
  let children ← InPlace.insertAt .outOfBounds a.children a.numChildren.toNat idx (some child)
  pure { a with numChildren := a.numChildren + 1, keys := keys, children := children }

/-- The list is `bitfield & mask`, the lowest bit first. -/
def addChild16 : Except Fault (ArtArrays C) :=
  let bitfield := (a.keys.map fun key => decide (c < key)).take a.numChildren.toNat
  a.shiftIn (if bitfield.any id then bitfield.findIdx id else a.numChildren.toNat) c child

def addChild4 : Except Fault (ArtArrays C) :=
  a.shiftIn ((a.keys.take a.numChildren.toNat).findIdx fun key => c < key) c child

def addChild : Except Fault (ArtArrays C) :=
  match a.type with
  | .node4 => a.addChild4 c child
  | .node16 => a.addChild16 c child
  | .node48 => a.addChild48 c child
  | .node256 => a.addChild256 c child

def nodeFull (a : ArtArrays C) : Bool :=
  match a.type with
  | .node4 => 4 ≤ a.numChildren.toNat
  | .node16 => 16 ≤ a.numChildren.toNat
  | .node48 => 48 ≤ a.numChildren.toNat
  | .node256 => false

def slotted (a : ArtArrays C) : List (Byte × Option C) :=
  bytes.filterMap fun b => (a.slot b).map fun pos => (b, a.children[pos]?.join)

def growAndInsert48 : Except Fault (ArtArrays C) := do
  let new : ArtArrays C := alloc .node256
  let children ← InPlace.writeAll .outOfBounds new.children
    (a.slotted.map fun e => (e.1.toNat, e.2))
  let new := { new with numChildren := a.numChildren, children := children }
  new.addChild256 c child

def growAndInsert16 : Except Fault (ArtArrays C) := do
  let new : ArtArrays C := { alloc .node48 with slots := node48GrowSlots }
  let num := a.numChildren.toNat
  let children ← copy new.children 0 (a.children.take num)
  let keys ← InPlace.writeAll .outOfBounds new.keys
    ((a.keys.take num).zipIdx.map fun e => (e.1.toNat, BitVec.ofNat 8 (e.2 + 1)))
  let new := { new with numChildren := a.numChildren, keys := keys, children := children }
  new.addChild48 c child

def growAndInsert4 : Except Fault (ArtArrays C) := do
  let new : ArtArrays C := alloc .node16
  let num := a.numChildren.toNat
  let children ← copy new.children 0 (a.children.take num)
  let keys ← copy new.keys 0 (a.keys.take num)
  let new := { new with numChildren := a.numChildren, keys := keys, children := children }
  new.addChild16 c child

def growAndInsert : Except Fault (ArtArrays C) :=
  match a.type with
  | .node4 => a.growAndInsert4 c child
  | .node16 => a.growAndInsert16 c child
  | .node48 => a.growAndInsert48 c child
  | .node256 => a.addChild256 c child

/-! ## Lookup -/

/-- The `idx` of `find_child` and the place of the child it returns. -/
def findPlace : Option (ℕ × ℕ) :=
  match a.type with
  | .node4 | .node16 =>
    ((a.keys.take a.numChildren.toNat).findIdx? (· == c)).map fun i => (i, i)
  | .node48 => (a.slot c).map fun pos => (c.toNat, pos)
  | .node256 => some (c.toNat, c.toNat)

/-- `find_child`: `idx`, the place of the child, and the child unless it is null. -/
def findChild : Option (ℕ × ℕ × C) :=
  (a.findPlace c).bind fun e => a.children[e.2]?.join.map fun child => (e.1, e.2, child)

/-- `*nextloc = child` -/
def setChild (a : ArtArrays C) (pos : ℕ) (child : C) : ArtArrays C :=
  { a with children := a.children.set pos (some child) }

def firstChild (a : ArtArrays C) : Option C :=
  match a.type with
  | .node4 | .node16 => a.children[0]?.join
  | .node48 => a.slotted.head?.bind Prod.snd
  | .node256 => a.children.findSome? id

/-! ## Removal -/

def removeChild (a : ArtArrays C) (i : ℕ) : Except Fault (ArtArrays C) :=
  match a.type with
  | .node4 | .node16 => do
    let keys ← InPlace.eraseAt .outOfBounds a.keys a.numChildren.toNat i
    let children ← InPlace.eraseAt .outOfBounds a.children a.numChildren.toNat i
    pure { a with numChildren := a.numChildren - 1, keys := keys, children := children }
  | .node48 => do
    let key ← read a.keys i
    let children ← write a.children (key.toNat - 1) none
    let keys ← write a.keys i 0
    pure { a with
      numChildren := a.numChildren - 1, keys := keys, slots := freeSlot a.slots (key.toNat - 1)
      children := children }
  | .node256 => do
    let children ← write a.children i none
    pure { a with numChildren := a.numChildren - 1, children := children }

def removeChildAndShrink16 : Except Fault (ArtArrays C) := do
  let new : ArtArrays C := alloc .node4
  let kept := ((a.keys.zip a.children).take a.numChildren.toNat).filter fun e => e.1 ≠ c
  let keys ← copy new.keys 0 (kept.map Prod.fst)
  let children ← copy new.children 0 (kept.map Prod.snd)
  pure { new with
    numChildren := BitVec.ofNat 8 (node16MinSize - 1), keys := keys, children := children }

def removeChildAndShrink48 : Except Fault (ArtArrays C) := do
  let new : ArtArrays C := alloc .node16
  let kept := a.slotted.filter fun e => e.1 ≠ c
  let keys ← copy new.keys 0 (kept.map Prod.fst)
  let children ← copy new.children 0 (kept.map Prod.snd)
  pure { new with
    numChildren := BitVec.ofNat 8 (node48MinSize - 1), keys := keys, children := children }

def moveChild (new : ArtArrays C) (e : Byte × C) : Except Fault (ArtArrays C) := do
  let (pos, slots) ← allocSlot new.slots
  let keys ← write new.keys e.1.toNat (BitVec.ofNat 8 (pos + 1))
  let children ← write new.children pos (some e.2)
  pure { new with keys := keys, slots := slots, children := children }

def removeChildAndShrink256 : Except Fault (ArtArrays C) :=
  let new : ArtArrays C := { alloc .node48 with
    numChildren := BitVec.ofNat 8 (node256MinSize - 1) }
  let kept := ListsMap.listing bytes fun b => if b ≠ c then a.children[b.toNat]?.join else none
  kept.foldlM moveChild new

end ArtArrays

end Art

end PromTCS
