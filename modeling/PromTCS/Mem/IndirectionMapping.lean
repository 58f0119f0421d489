import PromTCS.Base.Coding

/-!
# The indirection mapping

`IndirectionMapping` keeps a word for every metric and every source group. Its snapshot
is a header and the words one after another, all of them varints. The header is the number
of words, but `recover_from_snapshot` reads that many bytes; and it stores the words that
it reads in a table that it has just cleared. A read outside a table is `none`.
-/

namespace PromTCS

open List

open Coding

def sourceNum : ℕ := 65536

/-- `slots_`, with `SOURCE_NUM` words for every metric. All of them are in memory. -/
structure IndirectionMapping where
  slots : List (List Word)
  length_row : ∀ row ∈ slots, row.length = sourceNum
  size_lt : slots.length * sourceNum < 2 ^ 64

namespace IndirectionMapping

/-- The constructor, with `METRIC_NUM` metrics. -/
def init : IndirectionMapping where
  slots := List.replicate 512 (List.replicate sourceNum 0#64)
  length_row := fun _ h => by rw [(mem_replicate.1 h).2, length_replicate]
  size_lt := by
    rw [length_replicate]
    decide

/-- `read_slot` of a table. -/
def readSlot (slots : List (List Word)) (sgid mid : Word) : Option Word :=
  if slots.length ≤ mid.toNat ∨ sourceNum ≤ sgid.toNat then some (BitVec.allOnes 64)
  else do
    let row ← slots[mid.toNat]?
    row[sgid.toNat]?

/-- The bytes that `snapshot` appends to its file. -/
def snapshot (slots : List (List Word)) : List Byte :=
  encodeVarint64 (BitVec.ofNat 64 (slots.length * sourceNum)) ++
    slots.flatten.flatMap encodeVarint64

/-- `slots_[midx][sidx++].store(v)`, after which a full row is left. -/
def store (s : List (List Word) × ℕ × ℕ) (v : Word) : Option (List (List Word) × ℕ × ℕ) := do
  let (slots, midx, sidx) := s
  let row ← slots[midx]?
  if sidx < row.length then
    let slots := slots.set midx (row.set sidx v)
    return if sidx + 1 = sourceNum then (slots, midx + 1, 0) else (slots, midx, sidx + 1)
  else none

def recoverFromSnapshot (file : List Byte) : Option (List (List Word)) := do
  let (recordSize, rest) ← readHeader file
  let record := rest.take recordSize.toNat
  let (slots, _) ← forVarints store record.length ([], 0, 0) record
  return slots

def ReadsBack (m : IndirectionMapping) : Prop :=
  ∃ slots, recoverFromSnapshot (snapshot m.slots) = some slots ∧
    ∀ sgid mid, readSlot slots sgid mid = readSlot m.slots sgid mid

theorem recoverFromSnapshot_eq_none {m : IndirectionMapping} (h : m.slots ≠ []) :
    recoverFromSnapshot (snapshot m.slots) = none := by
  have hsize : (BitVec.ofNat 64 (m.slots.length * sourceNum)).toNat ≠ 0 := by
    rw [BitVec.toNat_ofNat, Nat.mod_eq_of_lt m.size_lt]
    exact Nat.mul_ne_zero (length_pos_of_ne_nil h).ne' (by decide)
  rw [recoverFromSnapshot, snapshot, readHeader_encodeVarint64]
  simp only [Option.bind_eq_bind, Option.bind_some]
  obtain ⟨row, slots, hslots⟩ := exists_cons_of_ne_nil h
  have hrow : row.length = sourceNum := m.length_row row (hslots ▸ mem_cons_self)
  rw [hslots] at hsize ⊢
  generalize hrecord : List.take _ _ = record
  cases record with
  | nil =>
    -- the record is not empty: it has the words of a row
    rcases take_eq_nil_iff.1 hrecord with hzero | hnil
    · exact absurd hzero hsize
    · cases row with
      | nil => exact absurd hrow (by decide)
      | cons v row =>
        have hpos : 0 < (encodeVarint64 v).length := (length_encodeVarintLoop 9 v).1
        rw [flatten_cons, cons_append, flatMap_cons,
          append_eq_nil_iff] at hnil
        rw [hnil.1] at hpos
        exact absurd hpos (lt_irrefl 0)
  | cons b record =>
    rw [length_cons, forVarints]
    cases getVarint64 (b :: record) with
    | none => rfl
    | some vr => rfl

end IndirectionMapping

open IndirectionMapping in
/-- Only the snapshot of a mapping without metrics can be recovered. -/
theorem indirectionMapping_recovers_iff (m : IndirectionMapping) :
    m.ReadsBack ↔ m.slots = [] := by
  constructor
  · rintro ⟨slots, hrecover, -⟩
    by_contra hne
    rw [recoverFromSnapshot_eq_none hne] at hrecover
    exact nomatch hrecover
  · intro hnil
    refine ⟨[], ?_, fun _ _ => by rw [hnil]⟩
    rw [hnil]
    decide

theorem indirectionMapping_recovers_nil :
    (⟨[], nofun, by decide⟩ : IndirectionMapping).ReadsBack :=
  (indirectionMapping_recovers_iff _).2 rfl

/-- What the constructor makes is not recovered. -/
theorem indirectionMapping_not_recovers : ¬IndirectionMapping.init.ReadsBack := by
  rintro ⟨slots, hrecover, -⟩
  have hne : IndirectionMapping.init.slots ≠ [] := cons_ne_nil _ _
  rw [IndirectionMapping.recoverFromSnapshot_eq_none hne] at hrecover
  exact nomatch hrecover

end PromTCS
