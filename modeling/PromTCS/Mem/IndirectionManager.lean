import PromTCS.Base.Coding
import PromTCS.Lib.Run
import Mathlib.Logic.Function.Basic

/-!
# Slots of the indirection manager

`IndirectionManager` hands out slots of blocks of `PRESERVED_BLOCKS` words. A block has a
counter, and there are counters for `PRESERVED_BLOCKS` blocks. `alloc_slot` uses the last
block and leaves the list of available blocks alone, which `random_alloc` takes a block
from without a look at its counter. A snapshot has the words of the blocks, and neither the
available blocks nor the number of slots. It is appended to the file of the directory, and a
recovery reads the blocks of all snapshots of the file one after the other. An access outside a
table is `none`, as are a division by zero and the erasure of the end of a list.
-/

namespace PromTCS

open List Function

open Coding

def preservedBlocks : ℕ := 65536

def slotOf (block counter : ℕ) : Word :=
  BitVec.ofNat 64 block <<< 32 ||| BitVec.ofNat 64 counter

def blockOf (idx : Word) : ℕ :=
  (idx >>> 32).toNat

def offsetOf (idx : Word) : ℕ :=
  (idx &&& 0xffffffff#64).toNat

structure IndirectionManager where
  blocks : List (List Word)
  blockCounters : ℕ → ℕ
  numSlots : ℕ
  availableBlocks : List ℕ

namespace IndirectionManager

def newBlock : List Word :=
  List.replicate preservedBlocks 0#64

def init : IndirectionManager :=
  ⟨[newBlock], fun _ => 0, 0, [0]⟩

variable (m : IndirectionManager)

def addBlock : Option IndirectionManager :=
  if m.blocks.length < preservedBlocks then
    some { m with
      blocks := m.blocks ++ [newBlock]
      blockCounters := update m.blockCounters m.blocks.length 0 }
  else none

def take (block : ℕ) : IndirectionManager :=
  { m with
    blockCounters := update m.blockCounters block (m.blockCounters block + 1) }

def allocSlot : Option (IndirectionManager × Word) := do
  let m ← if preservedBlocks ≤ m.blockCounters (m.blocks.length - 1) then m.addBlock else some m
  let block := m.blocks.length - 1
  return ({ m.take block with numSlots := m.numSlots + 1 }, slotOf block (m.blockCounters block))

def Crowded : Prop :=
  9 * 65536 * m.blocks.length < 10 * (m.numSlots + 1)

instance (m : IndirectionManager) : Decidable m.Crowded :=
  inferInstanceAs (Decidable (_ < _))

def count : Option IndirectionManager :=
  if m.Crowded then
    addBlock { m with
      numSlots := m.numSlots + 1
      availableBlocks := m.availableBlocks ++ [m.blocks.length] }
  else some { m with numSlots := m.numSlots + 1 }

/-- `random_alloc`, with the number that `rand` returns. -/
def randomAlloc (rand : ℕ) : Option (IndirectionManager × Word) := do
  let i := rand % m.availableBlocks.length
  let block ← m.availableBlocks[i]?
  let available :=
    if m.blockCounters block + 1 = 65536 then m.availableBlocks.eraseIdx i
    else m.availableBlocks
  let m' ← count { m.take block with availableBlocks := available }
  return (m', slotOf block (m.blockCounters block))

/-- `erase` at the `lower_bound` of the block. -/
def eraseAvailable (available : List ℕ) (block : ℕ) : Option (List ℕ) :=
  let i := available.findIdx fun b => decide (block ≤ b)
  if i < available.length then some (available.eraseIdx i) else none

def availableAfter (block : ℕ) : Option (List ℕ) :=
  if m.blockCounters block + 1 = 65536 then eraseAvailable m.availableBlocks block
  else some m.availableBlocks

def specificAlloc (block rand : ℕ) :
    Option (IndirectionManager × Word) :=
  if preservedBlocks ≤ m.blockCounters block then m.randomAlloc rand
  else do
    let available ← m.availableAfter block
    let m' ← count { m.take block with availableBlocks := available }
    return (m', slotOf block (m.blockCounters block))

def setSlot (idx v : Word) : Option IndirectionManager := do
  let block ← m.blocks[blockOf idx]?
  if offsetOf idx < block.length then
    return { m with blocks := m.blocks.set (blockOf idx) (block.set (offsetOf idx) v) }
  else none

def readSlot (idx : Word) : Option Word := do
  let block ← m.blocks[blockOf idx]?
  block[offsetOf idx]?

/-- The words of a block that `snapshot` writes, with their number before them. -/
def blockWords (block : List Word) (counter : ℕ) : Option (List Word) :=
  if counter ≤ block.length then some (BitVec.ofNat 64 counter :: block.take counter) else none

/-- The bytes of the blocks, each with its counter. -/
def snapshotRecords : List (ℕ × List Word) → Option (List Byte)
  | [] => some []
  | (counter, block) :: blocks => do
    let words ← blockWords block counter
    let record := words.flatMap encodeVarint64
    let rest ← snapshotRecords blocks
    return encodeVarint64 (BitVec.ofNat 64 record.length) ++ record ++ rest

/-- The blocks with their counters. -/
def records : List (ℕ × List Word) :=
  m.blocks.mapIdx fun i block => (m.blockCounters i, block)

/-- `snapshot`, which opens the file to append to it. -/
def snapshot (file : List Byte) : Option (List Byte) := do
  let bytes ← snapshotRecords m.records
  return file ++ bytes

/-- `vec[idx++] = v`. -/
def store (s : List Word × ℕ) (v : Word) : Option (List Word × ℕ) :=
  if s.2 < s.1.length then some (s.1.set s.2 v, s.2 + 1) else none

def recoverBlock (file : List Byte) : Option (Word × List Word × List Byte) := do
  let (recordSize, rest) ← readHeader file
  let (v, record) ← getVarint64 (rest.take recordSize.toNat)
  let (block, _) ← forVarints store record.length (newBlock, 0) record
  return (v, block, rest.drop recordSize.toNat)

/-- The loop of `recover_from_snapshot`: the counters and the blocks that it reads. -/
def recoverLoop : ℕ → List Byte → Option (List (ℕ × List Word))
  | _, [] => some []
  | 0, _ :: _ => none
  | fuel + 1, b :: file => do
    let (v, block, file) ← recoverBlock (b :: file)
    let rest ← recoverLoop fuel file
    return (v.toNat, block) :: rest

def withRecords (records : List (ℕ × List Word)) : IndirectionManager :=
  { m with
    blocks := records.map Prod.snd
    blockCounters := fun i => (records[i]?.map Prod.fst).getD (m.blockCounters i) }

def recoverFromSnapshot (file : List Byte) : Option IndirectionManager := do
  let records ← recoverLoop file.length file
  if records.length ≤ preservedBlocks then some (m.withRecords records) else none

/-- A snapshot into the directory of the file, and the manager that is recovered from it. -/
def restart (file : List Byte) : Option (IndirectionManager × List Byte) := do
  let file ← m.snapshot file
  let m' ← recoverFromSnapshot init file
  return (m', file)

def restored (r : ℕ × List Word) : ℕ × List Word :=
  (r.1, r.2.take r.1 ++ newBlock.drop r.1)

/-- What a recovery finds: the blocks of the file, and behind them those of the manager up to
their counters. -/
def found (file : List Byte) : List (ℕ × List Word) :=
  (recoverLoop file.length file).getD [] ++ m.records.map restored

/-- The slot is one of a block and below its counter. -/
def Allocated (idx : Word) : Prop :=
  blockOf idx < m.blocks.length ∧ offsetOf idx < m.blockCounters (blockOf idx)

/-- The slot is below the counter of its block, where its value is `v`. -/
def HasSlot (records : List (ℕ × List Word)) (idx : Word) (v : Option Word) : Prop :=
  ∃ r, records[blockOf idx]? = some r ∧ offsetOf idx < r.1 ∧ r.2[offsetOf idx]? = v

/-- A block whose counter is not behind its end. -/
def Fits (r : ℕ × List Word) : Prop :=
  r.2.length = preservedBlocks ∧ r.1 ≤ preservedBlocks

variable {m m' : IndirectionManager}

theorem foldlM_store (front vs zeros : List Word) (h : vs.length ≤ zeros.length) :
    vs.foldlM store (front ++ zeros, front.length) =
      some (front ++ vs ++ zeros.drop vs.length, front.length + vs.length) := by
  induction vs generalizing front zeros with
  | nil => simp
  | cons v vs ih =>
    cases zeros with
    | nil => exact absurd h (Nat.not_succ_le_zero _)
    | cons z zeros =>
      have hstore : store (front ++ z :: zeros, front.length) v =
          some ((front ++ [v]) ++ zeros, (front ++ [v]).length) := by
        simp [store]
      rw [foldlM_cons, hstore, Option.bind_eq_bind, Option.bind_some,
        ih (front ++ [v]) zeros (Nat.le_of_succ_le_succ h)]
      simp
      omega

theorem recoverBlock_record {counter : ℕ} {block : List Word} (h : Fits (counter, block))
    (rest : List Byte) :
    recoverBlock (encodeVarint64 (BitVec.ofNat 64
        ((BitVec.ofNat 64 counter :: block.take counter).flatMap encodeVarint64).length) ++
      (BitVec.ofNat 64 counter :: block.take counter).flatMap encodeVarint64 ++ rest) =
      some (BitVec.ofNat 64 counter, (restored (counter, block)).2, rest) := by
  obtain ⟨hlen, hc⟩ := h
  dsimp only at hlen hc
  have htake : (block.take counter).length = counter := by
    rw [length_take, hlen, Nat.min_eq_left hc]
  have hnew : newBlock.length = preservedBlocks := length_replicate
  have hpreserved : preservedBlocks = 65536 := rfl
  have hsize := (length_flatMap_encodeVarint64 (BitVec.ofNat 64 counter :: block.take counter)).2
  rw [length_cons, htake] at hsize
  have hwords := (length_flatMap_encodeVarint64 (block.take counter)).1
  have hstore := foldlM_store [] (block.take counter) newBlock (by rw [htake, hnew]; exact hc)
  rw [htake, nil_append, nil_append, length_nil] at hstore
  rw [append_assoc, recoverBlock, readHeader_encodeVarint64]
  simp only [Option.bind_eq_bind, Option.bind_some]
  rw [BitVec.toNat_ofNat, Nat.mod_eq_of_lt (by omega), take_left, drop_left,
    flatMap_cons, getVarint64_encodeVarint64]
  simp only [Option.bind_some]
  rw [forVarints_flatMap store _ hwords, hstore]
  rfl

theorem exists_recoverLoop {records : List (ℕ × List Word)} (h : ∀ r ∈ records, Fits r) :
    ∃ file, snapshotRecords records = some file ∧ records.length ≤ file.length ∧
      ∀ fuel, records.length ≤ fuel → recoverLoop fuel file = some (records.map restored) := by
  induction records with
  | nil => exact ⟨[], rfl, le_rfl, fun fuel _ => by rw [recoverLoop, map_nil]⟩
  | cons r records ih =>
    rw [forall_mem_cons] at h
    obtain ⟨rest, hrest, hle, hloop⟩ := ih h.2
    have hrecord := recoverBlock_record h.1 rest
    have hblock : blockWords r.2 r.1 = some (BitVec.ofNat 64 r.1 :: r.2.take r.1) :=
      if_pos (h.1.1 ▸ h.1.2)
    have hwords := (length_flatMap_encodeVarint64
      (BitVec.ofNat 64 r.1 :: r.2.take r.1)).1
    rw [length_cons] at hwords
    refine ⟨_, by rw [snapshotRecords, hblock, hrest]; rfl, ?_, fun fuel hfuel => ?_⟩
    · rw [length_append, length_append, length_cons]
      omega
    obtain ⟨fuel, rfl⟩ := Nat.exists_eq_succ_of_ne_zero (Nat.ne_zero_of_lt hfuel)
    generalize hfile : encodeVarint64 _ ++ _ ++ rest = file at hrecord ⊢
    cases file with
    | nil =>
      rw [append_eq_nil_iff, append_eq_nil_iff] at hfile
      rw [hfile.1.2] at hwords
      exact absurd hwords (Nat.not_succ_le_zero _)
    | cons b file =>
      have hword : (BitVec.ofNat 64 r.1).toNat = r.1 := by
        rw [BitVec.toNat_ofNat]
        exact Nat.mod_eq_of_lt (h.1.2.trans_lt (by decide))
      rw [recoverLoop, hrecord]
      simp only [Option.bind_eq_bind, Option.bind_some]
      rw [hloop fuel (Nat.le_of_succ_le_succ hfuel), hword]
      rfl

theorem snapshotRecords_append {records records' : List (ℕ × List Word)} {file file' : List Byte}
    (h : snapshotRecords records = some file) (h' : snapshotRecords records' = some file') :
    snapshotRecords (records ++ records') = some (file ++ file') := by
  induction records generalizing file with
  | nil =>
    obtain rfl := Option.some.inj h
    exact h'
  | cons r records ih =>
    obtain ⟨words, hwords, h⟩ := Option.bind_eq_some_iff.1 h
    obtain ⟨rest, hrest, h⟩ := Option.bind_eq_some_iff.1 h
    obtain rfl := Option.some.inj h
    rw [cons_append, snapshotRecords, hwords, ih hrest, append_assoc]
    rfl

/-- The file is that of the snapshots of some blocks. -/
def Stored (file : List Byte) : Prop :=
  ∃ old, snapshotRecords old = some file ∧ ∀ r ∈ old, Fits r

theorem restart_eq {file : List Byte} (hfile : Stored file) (hfits : ∀ r ∈ m.records, Fits r) :
    ∃ file', Stored file' ∧ recoverLoop file'.length file' = some (m.found file) ∧
      m.restart file = if (m.found file).length ≤ preservedBlocks then
        some (init.withRecords (m.found file), file') else none := by
  obtain ⟨old, hold, hall⟩ := hfile
  obtain ⟨bytes, hbytes, -⟩ := exists_recoverLoop hfits
  have hread : ∀ {records file}, (∀ r ∈ records, Fits r) → snapshotRecords records = some file →
      recoverLoop file.length file = some (records.map restored) := by
    intro records file hfits hfile
    obtain ⟨file', hfile', hle, hloop⟩ := exists_recoverLoop hfits
    obtain rfl := Option.some.inj (hfile.symm.trans hfile')
    exact hloop _ hle
  have hboth := snapshotRecords_append hold hbytes
  have hfound := hread (forall_mem_append.2 ⟨hall, hfits⟩) hboth
  rw [map_append, ← Option.getD_some (a := old.map restored) (b := []), ← hread hall hold] at hfound
  refine ⟨file ++ bytes, ⟨_, hboth, forall_mem_append.2 ⟨hall, hfits⟩⟩, hfound, ?_⟩
  have hsnapshot : m.snapshot file = some (file ++ bytes) := by
    rw [snapshot, hbytes]
    rfl
  rw [restart, hsnapshot]
  simp only [Option.bind_eq_bind, Option.bind_some, recoverFromSnapshot]
  rw [hfound, Option.bind_some, ← found]
  split <;> rfl

theorem withRecords_hasSlot_iff {records : List (ℕ × List Word)} {idx : Word} {v : Option Word} :
    (init.withRecords records).Allocated idx ∧ (init.withRecords records).readSlot idx = v ↔
      HasSlot records idx v := by
  cases hget : records[blockOf idx]? with
  | none =>
    have hle : records.length ≤ blockOf idx := getElem?_eq_none_iff.1 hget
    simp [Allocated, HasSlot, withRecords, hle]
  | some r =>
    have hlt := (List.getElem?_eq_some_iff.1 hget).1
    simp [Allocated, HasSlot, withRecords, readSlot, hlt]

theorem blockOf_slotOf {b c : ℕ} (hb : b < 2 ^ 32) (hc : c < 2 ^ 32) :
    blockOf (slotOf b c) = b ∧ offsetOf (slotOf b c) = c := by
  have hslot : (slotOf b c).toNat = b * 2 ^ 32 + c := by
    rw [slotOf, BitVec.toNat_or, BitVec.toNat_shiftLeft, BitVec.toNat_ofNat, BitVec.toNat_ofNat,
      Nat.mod_eq_of_lt (by omega : b < 2 ^ 64), Nat.mod_eq_of_lt (by omega : c < 2 ^ 64),
      Nat.shiftLeft_eq, Nat.mod_eq_of_lt (by omega), ← Nat.shiftLeft_eq,
      ← Nat.shiftLeft_add_eq_or_of_lt hc, Nat.shiftLeft_eq]
  constructor
  · rw [blockOf, BitVec.toNat_ushiftRight, hslot, Nat.shiftRight_eq_div_pow]
    omega
  · have hmask : (0xffffffff#64).toNat = 2 ^ 32 - 1 := by decide
    rw [offsetOf, BitVec.toNat_and, hslot, hmask, Nat.and_two_pow_sub_one_eq_mod]
    omega

end IndirectionManager

/-- A manager, the slots that were returned, and the file of its snapshots. -/
structure SlotRun where
  manager : IndirectionManager
  slots : List Word
  file : List Byte

/-- The calls of a manager. `rand` returns any number. -/
inductive SlotOp
  | alloc
  | random (rand : ℕ)
  | specific (block rand : ℕ)
  | set (idx v : Word)
  | restart

namespace SlotRun

open IndirectionManager

def init : SlotRun :=
  ⟨IndirectionManager.init, [], []⟩

variable (s : SlotRun)

def returned : Option (IndirectionManager × Word) → Except Unit SlotRun
  | some (m, idx) => .ok ⟨m, s.slots ++ [idx], s.file⟩
  | none => .error ()

def changed : Option (IndirectionManager × List Byte) → Except Unit SlotRun
  | some (m, file) => .ok ⟨m, s.slots, file⟩
  | none => .error ()

def step : SlotOp → Except Unit SlotRun
  | .alloc => s.returned s.manager.allocSlot
  | .random rand => s.returned (s.manager.randomAlloc rand)
  | .specific block rand => s.returned (s.manager.specificAlloc block rand)
  | .set idx v => s.changed ((s.manager.setSlot idx v).map fun m => (m, s.file))
  | .restart => s.changed (s.manager.restart s.file)

def Allowed : SlotOp → Prop
  | .specific block _ => block < s.manager.blocks.length
  | .set idx _ => idx ∈ s.slots
  | _ => True

def InRange (m : IndirectionManager) (idx : Word) : Prop :=
  blockOf idx < m.blocks.length ∧ offsetOf idx < preservedBlocks

def Right (op : SlotOp) : Prop :=
  ∃ s', s.step op = .ok s' ∧
    (∀ idx, s'.slots = s.slots ++ [idx] → idx ∉ s.slots ∧ InRange s'.manager idx) ∧
    (op = .restart → ∀ idx ∈ s.slots,
      s'.manager.Allocated idx ∧ s'.manager.readSlot idx = s.manager.readSlot idx)

def CanGrow (m : IndirectionManager) : Prop :=
  m.Crowded → m.blocks.length < preservedBlocks

def RandomRoom (m : IndirectionManager) (rand : ℕ) : Prop :=
  (∃ b, m.availableBlocks[rand % m.availableBlocks.length]? = some b ∧
    m.blockCounters b < preservedBlocks) ∧ CanGrow m

def Room : SlotOp → Prop
  | .alloc => s.manager.blockCounters (s.manager.blocks.length - 1) < preservedBlocks ∨
      s.manager.blocks.length < preservedBlocks
  | .random rand => RandomRoom s.manager rand
  | .specific block rand =>
    if preservedBlocks ≤ s.manager.blockCounters block then RandomRoom s.manager rand
    else (s.manager.blockCounters block + 1 = 65536 →
      ∃ b ∈ s.manager.availableBlocks, block ≤ b) ∧ CanGrow s.manager
  | .set _ _ => True
  | .restart =>
    (s.manager.found s.file).length ≤ preservedBlocks ∧
      ∀ idx ∈ s.slots, HasSlot (s.manager.found s.file) idx (s.manager.readSlot idx)

structure Sound (m : IndirectionManager) (slots : List Word) : Prop where
  pos : 0 < m.blocks.length
  length_le : m.blocks.length ≤ preservedBlocks
  length_block : ∀ block ∈ m.blocks, block.length = preservedBlocks
  counter_le : ∀ b < m.blocks.length, m.blockCounters b ≤ preservedBlocks
  available_lt : ∀ b ∈ m.availableBlocks, b < m.blocks.length
  allocated : ∀ idx ∈ slots, m.Allocated idx
  nodup : slots.Nodup

variable {m m' : IndirectionManager} {slots : List Word} {b c n : ℕ} {available : List ℕ}

theorem sound_init : Sound IndirectionManager.init [] where
  pos := Nat.zero_lt_one
  length_le := by decide
  length_block := by
    intro block hblock
    rw [mem_singleton.1 hblock, newBlock, length_replicate]
  counter_le := fun _ _ => Nat.zero_le _
  available_lt := by decide
  allocated := fun _ hidx => absurd hidx not_mem_nil
  nodup := nodup_nil

theorem exists_count_iff : (∃ m', m.count = some m') ↔ CanGrow m := by
  rw [IndirectionManager.count, IndirectionManager.addBlock, CanGrow]
  by_cases hcrowded : m.Crowded
  · by_cases hlt : m.blocks.length < preservedBlocks <;> simp [hcrowded, hlt]
  · simp [hcrowded]

theorem canGrow_of_count
    (h : IndirectionManager.count { m.take b with availableBlocks := available } = some m') :
    CanGrow m := by
  have hgrow := exists_count_iff.1 ⟨m', h⟩
  exact hgrow

theorem lt_take_iff (m : IndirectionManager) (b b' c : ℕ) :
    c < (m.take b).blockCounters b' ↔
      c < m.blockCounters b' ∨ b' = b ∧ c = m.blockCounters b := by
  dsimp only [IndirectionManager.take]
  rw [update_apply]
  split
  · rename_i heq
    rw [heq]
    omega
  · rename_i hne
    exact ⟨Or.inl, fun h => h.resolve_right fun h => hne h.1⟩

namespace Sound

section

variable (h : Sound m slots)
include h

theorem slot_small (hb : b < m.blocks.length) (hc : c ≤ preservedBlocks) :
    blockOf (slotOf b c) = b ∧ offsetOf (slotOf b c) = c := by
  have hpreserved : preservedBlocks = 65536 := rfl
  have hlen := h.length_le
  exact blockOf_slotOf (by omega) (by omega)

theorem inRange {idx : Word} (hidx : idx ∈ slots) : InRange m idx :=
  have hslot := h.allocated idx hidx
  ⟨hslot.1, hslot.2.trans_le (h.counter_le _ hslot.1)⟩

theorem take_notMem (hb : b < m.blocks.length)
    (hc : m.blockCounters b < preservedBlocks) : slotOf b (m.blockCounters b) ∉ slots := by
  intro hmem
  have hslot := (h.allocated _ hmem).2
  rw [(h.slot_small hb hc.le).1, (h.slot_small hb hc.le).2] at hslot
  exact lt_irrefl _ hslot

theorem take (hb : b < m.blocks.length)
    (hc : m.blockCounters b < preservedBlocks) (n : ℕ)
    (havailable : ∀ b ∈ available, b < m.blocks.length) :
    Sound { m.take b with numSlots := n, availableBlocks := available }
      (slots ++ [slotOf b (m.blockCounters b)]) where
  pos := h.pos
  length_le := h.length_le
  length_block := h.length_block
  counter_le := by
    intro b' hb'
    refine not_lt.1 fun hlt => ?_
    rcases (lt_take_iff m b b' _).1 hlt with hold | ⟨-, heq⟩
    · exact (h.counter_le b' hb').not_gt hold
    · exact hc.ne' heq
  available_lt := havailable
  allocated := by
    obtain ⟨hblock, hoffset⟩ := h.slot_small hb hc.le
    rw [forall_mem_append, forall_mem_singleton]
    refine ⟨fun idx hidx => ?_, ?_, (lt_take_iff m b _ _).2 (Or.inr ⟨hblock, hoffset⟩)⟩
    · exact ⟨(h.allocated idx hidx).1, (lt_take_iff m b _ _).2 (Or.inl (h.allocated idx hidx).2)⟩
    · rw [hblock]
      exact hb
  nodup := by
    refine List.nodup_append.2 ⟨h.nodup, pairwise_singleton _ _, fun idx hidx idx' hidx' heq => ?_⟩
    rw [heq, mem_singleton.1 hidx'] at hidx
    exact h.take_notMem hb hc hidx

theorem addBlock (n : ℕ)
    (havailable : ∀ b ∈ available, b < m.blocks.length + 1)
    (hadd : IndirectionManager.addBlock
      { m with numSlots := n, availableBlocks := available } = some m') :
    m.blocks.length < preservedBlocks ∧ m'.blocks.length = m.blocks.length + 1 ∧
      m'.blockCounters m.blocks.length = 0 ∧ Sound m' slots := by
  rw [IndirectionManager.addBlock] at hadd
  split at hadd
  case isFalse => exact nomatch hadd
  case isTrue hlt =>
  cases hadd
  have hlen : (m.blocks ++ [newBlock]).length = m.blocks.length + 1 := by
    rw [length_append, length_singleton]
  have hold : ∀ b < m.blocks.length,
      update m.blockCounters m.blocks.length 0 b = m.blockCounters b := fun b hb =>
    update_of_ne hb.ne _ _
  refine ⟨hlt, hlen, update_self _ _ _, ?_⟩
  constructor
  · exact hlen ▸ Nat.succ_pos _
  · exact hlen ▸ hlt
  · rw [forall_mem_append, forall_mem_singleton]
    exact ⟨h.length_block, length_replicate⟩
  · intro b hb
    dsimp only at hb ⊢
    rw [hlen] at hb
    rcases (Nat.lt_succ_iff.1 hb).lt_or_eq with hb | rfl
    · rw [hold b hb]
      exact h.counter_le b hb
    · rw [update_self]
      exact Nat.zero_le _
  · exact hlen ▸ havailable
  · intro idx hidx
    obtain ⟨hb, hc⟩ := h.allocated idx hidx
    exact ⟨hlen ▸ Nat.lt_succ_of_lt hb, hc.trans_eq (hold _ hb).symm⟩
  · exact h.nodup

theorem count (hcount : m.count = some m') :
    Sound m' slots ∧ m.blocks.length ≤ m'.blocks.length := by
  rw [IndirectionManager.count] at hcount
  split at hcount
  · have havailable : ∀ b ∈ m.availableBlocks ++ [m.blocks.length], b < m.blocks.length + 1 := by
      rw [forall_mem_append, forall_mem_singleton]
      exact ⟨fun b hb => Nat.lt_succ_of_lt (h.available_lt b hb), Nat.lt_succ_self _⟩
    obtain ⟨-, hlen, -, hsound⟩ := h.addBlock _ havailable hcount
    exact ⟨hsound, hlen ▸ Nat.le_succ _⟩
  · cases hcount
    exact ⟨⟨h.pos, h.length_le, h.length_block, h.counter_le, h.available_lt, h.allocated,
      h.nodup⟩, le_rfl⟩

theorem exists_granted (hb : b < m.blocks.length)
    (hc : m.blockCounters b < preservedBlocks)
    (havailable : ∀ b ∈ available, b < m.blocks.length) (hgrow : CanGrow m) :
    ∃ m', IndirectionManager.count { m.take b with availableBlocks := available } = some m' ∧
      Sound m' (slots ++ [slotOf b (m.blockCounters b)]) := by
  have htake := h.take hb hc m.numSlots havailable
  obtain ⟨m', hm'⟩ := (exists_count_iff
    (m := { m.take b with availableBlocks := available })).2 hgrow
  exact ⟨m', hm', (htake.count hm').1⟩

theorem exists_random {rand : ℕ} (hroom : RandomRoom m rand) :
    ∃ m' idx, m.randomAlloc rand = some (m', idx) ∧ idx ∉ slots ∧ Sound m' (slots ++ [idx]) := by
  obtain ⟨⟨b, hget, hc⟩, hgrow⟩ := hroom
  have hb := h.available_lt b (mem_of_getElem? hget)
  have havailable : ∀ b' ∈ (if m.blockCounters b + 1 = 65536 then
      m.availableBlocks.eraseIdx (rand % m.availableBlocks.length) else m.availableBlocks),
      b' < m.blocks.length := by
    intro b' hb'
    split at hb'
    · exact h.available_lt b' (mem_of_mem_eraseIdx hb')
    · exact h.available_lt b' hb'
  obtain ⟨m', hcount, hsound⟩ := h.exists_granted hb hc havailable hgrow
  refine ⟨m', _, ?_, h.take_notMem hb hc, hsound⟩
  rw [randomAlloc, hget]
  simp only [Option.bind_eq_bind, Option.bind_some, hcount]
  rfl

theorem exists_specific (hb : b < m.blocks.length)
    (hc : m.blockCounters b < preservedBlocks) (rand : ℕ)
    (hlast : m.blockCounters b + 1 = 65536 → ∃ b' ∈ m.availableBlocks, b ≤ b')
    (hgrow : CanGrow m) :
    ∃ m' idx, m.specificAlloc b rand = some (m', idx) ∧ idx ∉ slots ∧
      Sound m' (slots ++ [idx]) := by
  obtain ⟨available, herase, havailable⟩ : ∃ available, m.availableAfter b = some available ∧
      ∀ b' ∈ available, b' < m.blocks.length := by
    rw [availableAfter]
    split
    · rename_i hfull
      obtain ⟨b', hb', hle⟩ := hlast hfull
      exact ⟨_, if_pos (findIdx_lt_length_of_exists ⟨b', hb', decide_eq_true hle⟩),
        fun b hb => h.available_lt b (mem_of_mem_eraseIdx hb)⟩
    · exact ⟨_, rfl, h.available_lt⟩
  obtain ⟨m', hcount, hsound⟩ := h.exists_granted hb hc havailable hgrow
  refine ⟨m', _, ?_, h.take_notMem hb hc, hsound⟩
  rw [specificAlloc, if_neg hc.not_ge, herase]
  simp only [Option.bind_eq_bind, Option.bind_some, hcount]
  rfl

theorem exists_alloc
    (hroom : m.blockCounters (m.blocks.length - 1) < preservedBlocks ∨
      m.blocks.length < preservedBlocks) :
    ∃ m' idx, m.allocSlot = some (m', idx) ∧ idx ∉ slots ∧ Sound m' (slots ++ [idx]) := by
  by_cases hfull : preservedBlocks ≤ m.blockCounters (m.blocks.length - 1)
  · obtain ⟨m₁, hadd⟩ : ∃ m₁, m.addBlock = some m₁ :=
      ⟨_, if_pos (hroom.resolve_left hfull.not_gt)⟩
    obtain ⟨-, hlen, hzero, hsound⟩ := h.addBlock m.numSlots
      (fun b hb => Nat.lt_succ_of_lt (h.available_lt b hb)) hadd
    have hlast : m₁.blocks.length - 1 = m.blocks.length := by rw [hlen, Nat.add_sub_cancel]
    have hc : m₁.blockCounters (m₁.blocks.length - 1) < preservedBlocks := by
      rw [hlast, hzero]
      decide
    have hb : m₁.blocks.length - 1 < m₁.blocks.length := Nat.sub_one_lt_of_lt hsound.pos
    refine ⟨_, _, ?_, hsound.take_notMem hb hc, hsound.take hb hc (m₁.numSlots + 1)
      hsound.available_lt⟩
    rw [allocSlot, if_pos hfull, hadd]
    rfl
  · have hb : m.blocks.length - 1 < m.blocks.length := Nat.sub_one_lt_of_lt h.pos
    refine ⟨_, _, ?_, h.take_notMem hb (not_le.1 hfull), h.take hb (not_le.1 hfull)
      (m.numSlots + 1) h.available_lt⟩
    rw [allocSlot, if_neg hfull]
    rfl

theorem exists_set {idx : Word} (hidx : idx ∈ slots) (v : Word) :
    ∃ m', m.setSlot idx v = some m' ∧ Sound m' slots := by
  obtain ⟨hb, hoffset⟩ := h.inRange hidx
  have hget := getElem?_eq_getElem hb
  have hlen := h.length_block _ (mem_of_getElem? hget)
  generalize m.blocks[blockOf idx] = block at hget hlen
  refine ⟨{ m with blocks := m.blocks.set (blockOf idx) (block.set (offsetOf idx) v) }, ?_, ?_⟩
  · rw [setSlot, hget, Option.bind_eq_bind, Option.bind_some, if_pos (hlen ▸ hoffset)]
    rfl
  · have hset : (m.blocks.set (blockOf idx) (block.set (offsetOf idx) v)).length =
        m.blocks.length := length_set
    refine ⟨hset ▸ h.pos, hset ▸ h.length_le, fun block' hblock' => ?_, hset ▸ h.counter_le,
      hset ▸ h.available_lt, fun idx hidx => ?_, h.nodup⟩
    · rcases mem_or_eq_of_mem_set hblock' with hold | rfl
      · exact h.length_block block' hold
      · rw [length_set, hlen]
    · exact ⟨hset ▸ (h.allocated idx hidx).1, (h.allocated idx hidx).2⟩

theorem fits : ∀ r ∈ m.records, Fits r := by
  intro r hr
  obtain ⟨i, hi, rfl⟩ := mem_mapIdx.1 hr
  exact ⟨h.length_block _ (getElem_mem hi), h.counter_le i hi⟩

/-- A recovered manager is sound if it has the blocks of all the slots. -/
theorem withRecords {records : List (ℕ × List Word)} (hne : records ≠ [])
    (hlen : records.length ≤ preservedBlocks) (hfits : ∀ r ∈ records, Fits r)
    (hslots : ∀ idx ∈ slots, (IndirectionManager.init.withRecords records).Allocated idx) :
    Sound (IndirectionManager.init.withRecords records) slots where
  pos := by
    rw [IndirectionManager.withRecords, length_map]
    exact length_pos_of_ne_nil hne
  length_le := by
    rw [IndirectionManager.withRecords, length_map]
    exact hlen
  length_block := forall_mem_map.2 fun r hr => (hfits r hr).1
  counter_le := by
    intro b hb
    dsimp only [IndirectionManager.withRecords] at hb ⊢
    rw [length_map] at hb
    rw [getElem?_eq_getElem hb]
    exact (hfits _ (getElem_mem hb)).2
  available_lt := by
    intro b hb
    rw [mem_singleton.1 hb, IndirectionManager.withRecords, length_map]
    exact length_pos_of_ne_nil hne
  allocated := hslots
  nodup := h.nodup

end

end Sound

theorem fits_restored {r : ℕ × List Word} (h : Fits r) : Fits (restored r) := by
  refine ⟨?_, h.2⟩
  rw [restored, length_append, length_take, length_drop, h.1, newBlock, length_replicate,
    Nat.min_eq_left h.2]
  exact Nat.add_sub_cancel' h.2

structure Safe (s : SlotRun) : Prop where
  sound : Sound s.manager s.slots
  stored : Stored s.file

theorem safe_init : init.Safe :=
  ⟨sound_init, [], rfl, fun _ hr => absurd hr not_mem_nil⟩

variable {s s' : SlotRun} {op : SlotOp}

section

variable (h : s.Safe)

include h

theorem Safe.fits_found : ∀ r ∈ s.manager.found s.file, Fits r := by
  obtain ⟨old, hold, hall⟩ := h.stored
  obtain ⟨file, hfile, hle, hloop⟩ := exists_recoverLoop hall
  obtain rfl := Option.some.inj (hold.symm.trans hfile)
  rw [found, hloop _ hle, Option.getD_some, ← map_append, forall_mem_map]
  exact fun r hr => fits_restored (forall_mem_append.2 ⟨hall, h.sound.fits⟩ r hr)

theorem Safe.found_ne_nil : s.manager.found s.file ≠ [] := by
  have hpos := h.sound.pos
  refine ne_nil_of_length_pos ?_
  rw [found, length_append, length_map, records, length_mapIdx]
  omega

/-- The first snapshot of a directory has all the slots. -/
theorem Safe.room_restart_of_nil (hfile : s.file = []) : s.Room .restart := by
  have hfound : s.manager.found s.file = s.manager.records.map restored := by
    rw [found, hfile]
    rfl
  have hget : ∀ i, s.manager.records[i]? =
      s.manager.blocks[i]?.map fun block => (s.manager.blockCounters i, block) :=
    fun i => getElem?_mapIdx
  refine ⟨?_, fun idx hidx => ?_⟩
  · rw [hfound, length_map, records, length_mapIdx]
    exact h.sound.length_le
  · obtain ⟨hb, hoffset⟩ := h.sound.allocated idx hidx
    have hrow := h.sound.length_block _ (getElem_mem hb)
    refine ⟨restored (s.manager.blockCounters (blockOf idx), s.manager.blocks[blockOf idx]),
      ?_, hoffset, ?_⟩
    · rw [hfound, getElem?_map, hget, getElem?_eq_getElem hb]
      rfl
    · rw [readSlot, getElem?_eq_getElem hb, restored, getElem?_append_left,
        getElem?_take_of_lt hoffset]
      · rfl
      · rw [length_take, hrow, Nat.min_eq_left (h.sound.counter_le _ hb)]
        exact hoffset

theorem Safe.restart (hroom : s.Room .restart) :
    ∃ file', s.step .restart = .ok
        ⟨IndirectionManager.init.withRecords (s.manager.found s.file), s.slots, file'⟩ ∧
      Safe ⟨IndirectionManager.init.withRecords (s.manager.found s.file), s.slots, file'⟩ ∧
      recoverLoop file'.length file' = some (s.manager.found s.file) := by
  obtain ⟨file', hstored, hloop, hrestart⟩ := restart_eq h.stored h.sound.fits
  rw [if_pos hroom.1] at hrestart
  refine ⟨file', by rw [step, hrestart]; rfl, ⟨?_, hstored⟩, hloop⟩
  exact h.sound.withRecords h.found_ne_nil hroom.1 h.fits_found fun idx hidx =>
    (withRecords_hasSlot_iff.2 (hroom.2 idx hidx)).1

theorem Safe.room_restart (hright : s.Right .restart) : s.Room .restart := by
  obtain ⟨s', hstep, -, hread⟩ := hright
  obtain ⟨file', -, -, hrestart⟩ := restart_eq h.stored h.sound.fits
  rw [step, hrestart] at hstep
  split at hstep
  · rename_i hlen
    cases hstep
    exact ⟨hlen, fun idx hidx => withRecords_hasSlot_iff.1 (hread rfl idx hidx)⟩
  · exact nomatch hstep

end

theorem right_returned {o : Option (IndirectionManager × Word)} (h : s.Safe)
    (hstep : s.step op = s.returned o) (hop : op ≠ .restart)
    (ho : ∃ m' idx, o = some (m', idx) ∧ idx ∉ s.slots ∧ Sound m' (s.slots ++ [idx])) :
    s.Right op ∧ ∀ s', s.step op = .ok s' → s'.Safe := by
  obtain ⟨m', idx, rfl, hidx, hsound⟩ := ho
  refine ⟨⟨_, hstep, fun idx' heq => ?_, fun hrestart => absurd hrestart hop⟩, fun s' hs' => ?_⟩
  · rw [← singleton_inj.1 (append_cancel_left heq)]
    exact ⟨hidx, hsound.inRange (mem_append_right _ (mem_singleton_self idx))⟩
  · rw [hstep] at hs'
    cases hs'
    exact ⟨hsound, h.stored⟩

theorem right_changed {m' : IndirectionManager} {file' : List Byte}
    (hstep : s.step op = .ok ⟨m', s.slots, file'⟩) (hsafe : Safe ⟨m', s.slots, file'⟩)
    (hread : op = .restart → ∀ idx ∈ s.slots,
      m'.Allocated idx ∧ m'.readSlot idx = s.manager.readSlot idx) :
    s.Right op ∧ ∀ s', s.step op = .ok s' → s'.Safe := by
  refine ⟨⟨_, hstep, fun idx heq => ?_, hread⟩, fun s' hs' => ?_⟩
  · exact absurd (congrArg List.length heq) (by simp)
  · rw [hstep] at hs'
    cases hs'
    exact hsafe

theorem right_of_room (h : s.Safe) (hop : s.Allowed op) (hroom : s.Room op) :
    s.Right op ∧ ∀ s', s.step op = .ok s' → s'.Safe := by
  cases op with
  | alloc => exact right_returned h rfl nofun (h.sound.exists_alloc hroom)
  | random rand => exact right_returned h rfl nofun (h.sound.exists_random hroom)
  | specific block rand =>
    refine right_returned h rfl nofun ?_
    rw [Room] at hroom
    split at hroom
    · rename_i hfull
      rw [specificAlloc, if_pos hfull]
      exact h.sound.exists_random hroom
    · rename_i hfree
      exact h.sound.exists_specific hop (not_le.1 hfree) rand hroom.1 hroom.2
  | set idx v =>
    obtain ⟨m', hm', hsound⟩ := h.sound.exists_set hop v
    exact right_changed (by rw [step, hm']; rfl) ⟨hsound, h.stored⟩ nofun
  | restart =>
    obtain ⟨file', hstep, hsafe, -⟩ := h.restart hroom
    exact right_changed hstep hsafe fun _ idx hidx =>
      withRecords_hasSlot_iff.2 (hroom.2 idx hidx)

theorem safe_of_reaches
    (hs : Run.Reaches (fun s op => s.Allowed op ∧ s.Room op) step init s) : s.Safe :=
  hs.invariant safe_init fun _ _ s' h hop hstep => (right_of_room h hop.1 hop.2).2 s' hstep

theorem randomRoom_of_right (h : Sound m slots) {rand : ℕ} {idx : Word}
    (hrandom : m.randomAlloc rand = some (m', idx)) (hrange : InRange m' idx) :
    RandomRoom m rand := by
  rw [randomAlloc] at hrandom
  obtain ⟨b, hget, hrandom⟩ := Option.bind_eq_some_iff.1 hrandom
  obtain ⟨m₁, hcount, hrandom⟩ := Option.bind_eq_some_iff.1 hrandom
  obtain ⟨rfl, rfl⟩ := Prod.mk.inj (Option.some.inj hrandom)
  have hb := h.available_lt b (mem_of_getElem? hget)
  have hoffset := (h.slot_small hb (h.counter_le b hb)).2
  exact ⟨⟨b, hget, hoffset ▸ hrange.2⟩, canGrow_of_count hcount⟩

theorem room_of_right (h : s.Safe) (hright : s.Right op) : s.Room op := by
  have hright' := hright
  obtain ⟨s', hstep, hslot, -⟩ := hright
  -- a call that returns a slot says which
  have hreturned : ∀ o, s.step op = s.returned o →
      ∃ m' idx, o = some (m', idx) ∧ InRange m' idx := by
    intro o ho
    rw [ho] at hstep
    cases o with
    | none => exact nomatch hstep
    | some mi =>
      cases hstep
      exact ⟨mi.1, mi.2, rfl, (hslot mi.2 rfl).2⟩
  cases op with
  | alloc =>
    obtain ⟨m', idx, halloc, -⟩ := hreturned _ rfl
    rw [Room]
    by_contra hfull
    rw [not_or, not_lt, not_lt] at hfull
    rw [allocSlot, if_pos hfull.1, IndirectionManager.addBlock, if_neg hfull.2.not_gt] at halloc
    exact nomatch halloc
  | random rand =>
    obtain ⟨m', idx, hrandom, hrange⟩ := hreturned _ rfl
    exact randomRoom_of_right h.sound hrandom hrange
  | specific block rand =>
    obtain ⟨m', idx, hspecific, hrange⟩ := hreturned _ rfl
    rw [specificAlloc] at hspecific
    rw [Room]
    split at hspecific
    · rename_i hfull
      rw [if_pos hfull]
      exact randomRoom_of_right h.sound hspecific hrange
    · rename_i hfree
      rw [if_neg hfree]
      obtain ⟨available, herase, hspecific⟩ := Option.bind_eq_some_iff.1 hspecific
      obtain ⟨m₁, hcount, -⟩ := Option.bind_eq_some_iff.1 hspecific
      refine ⟨fun hlast => ?_, canGrow_of_count hcount⟩
      rw [availableAfter, if_pos hlast, eraseAvailable] at herase
      by_contra hnone
      push Not at hnone
      rw [if_neg] at herase
      · exact nomatch herase
      · rw [findIdx_lt_length]
        rintro ⟨b, hb, hle⟩
        exact (hnone b hb).not_ge (of_decide_eq_true hle)
  | set idx v => exact trivial
  | restart => exact h.room_restart hright'

end SlotRun

open SlotRun

/-- In every run whose calls find room the slots are different and in range, and the next
call is right if and only if there is room for it. -/
theorem indirectionManager_right_iff {s : SlotRun}
    (hs : Run.Reaches (fun s op => s.Allowed op ∧ s.Room op) step SlotRun.init s) :
    s.slots.Nodup ∧ (∀ idx ∈ s.slots, SlotRun.InRange s.manager idx) ∧
      ∀ op, s.Allowed op → (s.Right op ↔ s.Room op) := by
  have hsafe := safe_of_reaches hs
  exact ⟨hsafe.sound.nodup, fun idx hidx => hsafe.sound.inRange hidx, fun op hop =>
    ⟨room_of_right hsafe, fun hroom => (right_of_room hsafe hop hroom).1⟩⟩

namespace SlotRun

open IndirectionManager

theorem exists_reaches_allocated {n : ℕ} (hn : n ≤ preservedBlocks) :
    ∃ s, Run.Reaches (fun s op => s.Allowed op ∧ s.Room op) step init s ∧
      s.manager.availableBlocks = [0] ∧ s.manager.blocks = [newBlock] ∧
      s.manager.blockCounters 0 = n ∧ s.manager.numSlots = n ∧
      s.slots = (range n).map (slotOf 0) ∧ s.file = [] := by
  induction n with
  | zero => exact ⟨init, .refl, rfl, rfl, rfl, rfl, rfl, rfl⟩
  | succ n ih =>
    obtain ⟨s, hs, havailable, hblocks, hcount, hnum, hslots, hfile⟩ := ih (Nat.le_of_succ_le hn)
    have hlen : s.manager.blocks.length = 1 := by rw [hblocks, length_singleton]
    have hfree : ¬preservedBlocks ≤ s.manager.blockCounters (s.manager.blocks.length - 1) := by
      rw [hlen, hcount]
      exact Nat.not_le.2 hn
    have hstep : s.step .alloc = .ok ⟨{ s.manager.take 0 with
        numSlots := s.manager.numSlots + 1 }, s.slots ++ [slotOf 0 n], s.file⟩ := by
      rw [step, allocSlot, if_neg hfree]
      simp [returned, hlen, hcount]
    refine ⟨_, hs.tail ⟨.alloc, ⟨trivial, Or.inl (not_le.1 hfree)⟩, hstep⟩, havailable, hblocks,
      ?_, ?_, ?_, hfile⟩
    · dsimp only [IndirectionManager.take]
      rw [update_self, hcount]
    · dsimp only
      rw [hnum]
    · dsimp only
      rw [hslots, range_succ, map_append, map_singleton]

/-- A value that is set after a snapshot is not read back from the next one. -/
theorem not_room_restart {s : SlotRun} (hroom : s.Room .restart) {file : List Byte}
    (hloop : recoverLoop file.length file = some (s.manager.found s.file)) {idx v : Word}
    (hidx : idx ∈ s.slots) (hv : s.manager.readSlot idx ≠ some v) {m : IndirectionManager}
    (hm : m.readSlot idx = some v) : ¬ Room ⟨m, s.slots, file⟩ .restart := by
  rintro ⟨-, hslots⟩
  obtain ⟨r, hget, -, hr⟩ := hroom.2 idx hidx
  obtain ⟨r', hget', -, hr'⟩ := hslots idx hidx
  -- the block of the first snapshot comes first
  have hold : (m.found file)[blockOf idx]? = some r := by
    rw [found, hloop, Option.getD_some,
      getElem?_append_left (List.getElem?_eq_some_iff.1 hget).1, hget]
  obtain rfl := Option.some.inj (hold.symm.trans hget')
  exact hv (hr.symm.trans (hr'.trans hm))

theorem readSlot_setSlot {m m' : IndirectionManager} {idx v : Word}
    (h : m.setSlot idx v = some m') : m'.readSlot idx = some v := by
  obtain ⟨block, hget, h⟩ := Option.bind_eq_some_iff.1 h
  split at h
  · rename_i hlt
    obtain rfl := Option.some.inj h
    rw [readSlot, getElem?_set_self (List.getElem?_eq_some_iff.1 hget).1]
    exact getElem?_set_self hlt
  · exact nomatch h

end SlotRun

/-- Two slots are taken and kept over a snapshot; the next one is another one. -/
theorem indirectionManager_right_restarted :
    ∃ s s', Run.Reaches (fun s op => s.Allowed op ∧ s.Room op) step SlotRun.init s ∧
      s.slots = [slotOf 0 0, slotOf 0 1] ∧ s.Right (.random 7) ∧ s.Right (.specific 0 7) ∧
      s.Right (.set (slotOf 0 1) 7) ∧ s.Right .restart ∧ s.step .restart = .ok s' ∧
      s'.slots = s.slots ∧ s'.Right .alloc := by
  obtain ⟨s, hs, havailable, hblocks, hcount, hnum, hslots, hfile⟩ :=
    exists_reaches_allocated (n := 2) (by decide)
  have hright := (indirectionManager_right_iff hs).2.2
  have hgrow : CanGrow s.manager := fun _ => by
    rw [hblocks]
    decide
  have hrestart := (safe_of_reaches hs).room_restart_of_nil hfile
  obtain ⟨file', hstep, -⟩ := (safe_of_reaches hs).restart hrestart
  have hs' := hs.tail ⟨.restart, ⟨trivial, hrestart⟩, hstep⟩
  refine ⟨s, _, hs, hslots, (hright (.random 7) trivial).2 ?_, (hright (.specific 0 7) ?_).2 ?_,
    (hright (.set _ 7) ?_).2 trivial, (hright .restart trivial).2 hrestart, hstep, rfl,
    ((indirectionManager_right_iff hs').2.2 .alloc trivial).2 ?_⟩
  · refine ⟨⟨0, ?_, ?_⟩, hgrow⟩
    · rw [havailable]
      rfl
    · rw [hcount]
      decide
  · rw [Allowed, hblocks]
    decide
  · rw [Room, hcount, if_neg (by decide)]
    exact ⟨fun hlast => absurd hlast (by decide), hgrow⟩
  · rw [Allowed, hslots]
    decide
  · right
    dsimp only [IndirectionManager.withRecords]
    rw [length_map, IndirectionManager.found, hfile, IndirectionManager.records, hblocks]
    exact (by decide : 1 < preservedBlocks)

/-- After `PRESERVED_BLOCKS` calls of `alloc_slot` the first block is full but still
available: `random_alloc` returns a slot behind its end. A slot that is set between two snapshots
has its old value after the second one. -/
theorem indirectionManager_not_right :
    (∃ s, Run.Reaches SlotRun.Allowed step SlotRun.init s ∧ ¬s.Right (.random 0)) ∧
      ∃ s, Run.Reaches SlotRun.Allowed step SlotRun.init s ∧ ¬s.Right .restart := by
  constructor
  · obtain ⟨s, hs, havailable, -, hcount, -⟩ := exists_reaches_allocated le_rfl
    refine ⟨s, hs.mono fun _ _ hop => hop.1, fun hright => ?_⟩
    obtain ⟨⟨b, hget, hlt⟩, -⟩ := room_of_right (safe_of_reaches hs) hright
    rw [havailable] at hget
    rw [← Option.some.inj (show some 0 = some b from hget), hcount] at hlt
    exact lt_irrefl _ hlt
  · obtain ⟨s, hs, -, hblocks, -, -, hslots, hfile⟩ := exists_reaches_allocated (n := 1) (by decide)
    have hsafe := safe_of_reaches hs
    have hroom := hsafe.room_restart_of_nil hfile
    have hidx : slotOf 0 0 ∈ s.slots := by
      rw [hslots]
      decide
    obtain ⟨file', hrestart, hsafe', hloop⟩ := hsafe.restart hroom
    obtain ⟨m, hset, hsound⟩ := hsafe'.sound.exists_set hidx 7
    have hstep : step ⟨IndirectionManager.init.withRecords (s.manager.found s.file), s.slots, file'⟩
        (.set (slotOf 0 0) 7) = .ok ⟨m, s.slots, file'⟩ := by
      rw [step, hset]
      rfl
    refine ⟨_, (((hs.mono fun _ _ hop => hop.1).tail ⟨.restart, trivial, hrestart⟩).tail
      ⟨.set (slotOf 0 0) 7, hidx, hstep⟩), fun hright => ?_⟩
    refine not_room_restart hroom hloop hidx ?_ (readSlot_setSlot hset)
      (room_of_right ⟨hsound, hsafe'.stored⟩ hright)
    have hzero : IndirectionManager.newBlock[0]? = some 0#64 := getElem?_replicate_of_lt (by decide)
    have hblock : blockOf (slotOf 0 0) = 0 ∧ offsetOf (slotOf 0 0) = 0 := by decide
    rw [IndirectionManager.readSlot, hblocks, hblock.1, hblock.2]
    simp [hzero]

end PromTCS
