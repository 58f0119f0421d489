import Mathlib.Order.Nat
import PromTCS.Base.Endian
import PromTCS.Lib.Run

/-!
# The label arena

`TreeHead::label_arena_alloc` cuts blocks out of chunks that never move. A block is placed
in the last chunk, and a request that does not fit there starts a new one. The offsets are
`size_t`, so that the sum in the test for the fit can wrap. A request whose chunk cannot be
made throws: it returns no block.
-/

namespace PromTCS

open List

/-- `label_arena_`, by the sizes of its chunks, and `label_arena_chunk_offset_`. -/
structure LabelArena where
  chunks : List Word
  chunkOffset : Word

/-- The arguments of `label_arena_alloc`. -/
structure ArenaRequest where
  size : Word
  alignment : Word

/-- A returned block, by its chunk and its place in it. -/
structure ArenaBlock where
  chunk : ℕ
  offset : Word
  size : Word

namespace LabelArena

inductive Fault
  | lengthError

def kLabelArenaChunkSize : Word := 65536#64

/-- The largest size of a vector of bytes. -/
def maxSize : Word := 0x7FFFFFFFFFFFFFFF#64

/-- The arena with at least one chunk. -/
def ready (a : LabelArena) : LabelArena :=
  if a.chunks = [] then ⟨[kLabelArenaChunkSize], 0#64⟩ else a

variable (a : LabelArena) (r : ArenaRequest)

def aligned : Word :=
  (a.ready.chunkOffset + r.alignment - 1#64) &&& ~~~(r.alignment - 1#64)

def labelArenaAlloc :
    Except Fault (ArenaBlock × LabelArena) :=
  let chunks := a.ready.chunks
  if kLabelArenaChunkSize < a.aligned r + r.size then
    let chunkSz := if kLabelArenaChunkSize < r.size then r.size else kLabelArenaChunkSize
    if maxSize < chunkSz then throw .lengthError
    else pure (⟨chunks.length, 0#64, r.size⟩, ⟨chunks ++ [chunkSz], 0#64 + r.size⟩)
  else pure (⟨chunks.length - 1, a.aligned r, r.size⟩, ⟨chunks, a.aligned r + r.size⟩)

/-- The arena and the blocks it has returned. -/
structure Traced where
  arena : LabelArena
  blocks : List ArenaBlock

def Traced.init : Traced := ⟨⟨[], 0#64⟩, []⟩

def Traced.alloc (t : Traced) (r : ArenaRequest) : Except Fault Traced :=
  (t.arena.labelArenaAlloc r).map fun p => ⟨p.2, t.blocks ++ [p.1]⟩

/-- `base i` is the address of chunk `i`. -/
def Valid (base : ℕ → ℕ) (r : ArenaRequest) : Prop :=
  0 < r.size.toNat ∧ (∃ n, r.alignment.toNat = 2 ^ n) ∧ ∀ i, r.alignment.toNat ∣ base i

def NoWrap : Prop :=
  (a.aligned r).toNat + r.size.toNat < 2 ^ 64

instance (a : LabelArena) (r : ArenaRequest) : Decidable (a.NoWrap r) :=
  inferInstanceAs (Decidable (_ < _))

/-- The block `b` that is returned for `r` and leaves the arena `a`. -/
structure Sound (base : ℕ → ℕ) (earlier : List ArenaBlock) (r : ArenaRequest) (b : ArenaBlock)
    (a : LabelArena) : Prop where
  size : b.size = r.size
  aligned : r.alignment.toNat ∣ base b.chunk + b.offset.toNat
  inside : ∃ chunkSz, a.chunks[b.chunk]? = some chunkSz ∧
    b.offset.toNat + b.size.toNat ≤ chunkSz.toNat
  disjoint : ∀ b' ∈ earlier, b'.chunk = b.chunk →
    b'.offset.toNat + b'.size.toNat ≤ b.offset.toNat ∨
      b.offset.toNat + b.size.toNat ≤ b'.offset.toNat

theorem and_not_mask_eq {n : ℕ} {mask : Word} (hmask : mask.toNat = 2 ^ n - 1) (x : Word) :
    (x &&& ~~~mask).toNat = x.toNat / 2 ^ n * 2 ^ n := by
  have hshift : x &&& ~~~mask = (x >>> n) <<< n := by
    apply BitVec.eq_of_getLsbD_eq
    intro i hi
    have hbit : mask.getLsbD i = decide (i < n) := by
      rw [BitVec.getLsbD, hmask, Nat.testBit_two_pow_sub_one]
    rw [BitVec.getLsbD_and, BitVec.getLsbD_not, hbit, BitVec.getLsbD_shiftLeft,
      BitVec.getLsbD_ushiftRight]
    by_cases hin : i < n
    · simp [hin]
    · simp [hi, hin, Nat.add_sub_cancel' (Nat.le_of_not_lt hin)]
  rw [hshift, BitVec.toNat_shiftLeft, BitVec.toNat_ushiftRight, Nat.shiftRight_eq_div_pow,
    Nat.shiftLeft_eq]
  exact Nat.mod_eq_of_lt ((Nat.div_mul_le_self _ _).trans_lt x.isLt)

/-- Rounding an offset that a chunk can have up to the alignment. -/
theorem roundUp_facts {n : ℕ} {offset alignment : Word} (halign : alignment.toNat = 2 ^ n)
    (hoffset : offset.toNat < 2 ^ 63) :
    let aligned := ((offset + alignment - 1#64) &&& ~~~(alignment - 1#64)).toNat
    alignment.toNat ∣ aligned ∧ offset.toNat ≤ aligned ∧ aligned ≤ 2 ^ 63 := by
  have hn : n ≤ 63 :=
    Nat.le_of_lt_succ ((Nat.pow_lt_pow_iff_right (by decide)).1 (halign ▸ alignment.isLt))
  have hpos : 0 < 2 ^ n := Nat.two_pow_pos n
  have hsplit : 2 ^ n * 2 ^ (63 - n) = 2 ^ 63 := by
    rw [← Nat.pow_add, Nat.add_sub_cancel' hn]
  have hle : 2 ^ n ≤ 2 ^ 63 := Nat.pow_le_pow_right (by decide) hn
  have hsum : (offset + alignment - 1#64).toNat = offset.toNat + 2 ^ n - 1 := by
    rw [BitVec.toNat_sub, BitVec.toNat_add, halign]
    simp only [BitVec.toNat_ofNat]
    omega
  have hmask : (alignment - 1#64).toNat = 2 ^ n - 1 := by
    rw [BitVec.toNat_sub, halign]
    simp only [BitVec.toNat_ofNat]
    omega
  have hfloor := Nat.div_add_mod (offset.toNat + 2 ^ n - 1) (2 ^ n)
  have hrem := Nat.mod_lt (offset.toNat + 2 ^ n - 1) hpos
  rw [and_not_mask_eq hmask, hsum, halign]
  refine ⟨Nat.dvd_mul_left _ _, ?_, ?_⟩
  · rw [Nat.mul_comm] at hfloor
    omega
  · rw [Nat.mul_comm, ← hsplit]
    refine Nat.mul_le_mul_left _ (Nat.le_of_lt_succ ?_)
    rw [Nat.div_lt_iff_lt_mul hpos, Nat.succ_mul, Nat.mul_comm, hsplit]
    omega

section

variable {base : ℕ → ℕ} {a a' : LabelArena} {r : ArenaRequest} {b : ArenaBlock} {t : Traced}

theorem labelArenaAlloc_cases (h : a.labelArenaAlloc r = .ok (b, a')) :
    (∃ chunkSz : Word, r.size.toNat ≤ chunkSz.toNat ∧ 65536 ≤ chunkSz.toNat ∧
      chunkSz.toNat < 2 ^ 63 ∧ b = ⟨a.ready.chunks.length, 0#64, r.size⟩ ∧
      a' = ⟨a.ready.chunks ++ [chunkSz], r.size⟩) ∨
    ((a.aligned r + r.size).toNat ≤ 65536 ∧
      b = ⟨a.ready.chunks.length - 1, a.aligned r, r.size⟩ ∧
      a' = ⟨a.ready.chunks, a.aligned r + r.size⟩) := by
  unfold labelArenaAlloc at h
  simp only [BitVec.zero_add] at h
  split_ifs at h with hfit hlarge hmax hmax
  · cases h
    exact Or.inl ⟨r.size, Nat.le_refl _, Nat.le_of_lt hlarge,
      Nat.lt_of_le_of_lt (Nat.le_of_not_lt hmax) (by decide), rfl, rfl⟩
  · cases h
    exact Or.inl ⟨_, Nat.le_of_not_lt hlarge, by decide, by decide, rfl, rfl⟩
  · cases h
    exact Or.inr ⟨Nat.le_of_not_lt hfit, rfl, rfl⟩

/-- The blocks of the last chunk end at or before the offset. -/
structure Packed (t : Traced) : Prop where
  last : t.arena.chunks ≠ [] → ∃ chunkSz,
    t.arena.chunks[t.arena.chunks.length - 1]? = some chunkSz ∧
      t.arena.chunkOffset.toNat ≤ chunkSz.toNat ∧ 65536 ≤ chunkSz.toNat ∧ chunkSz.toNat < 2 ^ 63
  before : ∀ b ∈ t.blocks, b.chunk < t.arena.chunks.length ∧
    (b.chunk = t.arena.chunks.length - 1 →
      b.offset.toNat + b.size.toNat ≤ t.arena.chunkOffset.toNat)

theorem packed_init : Packed .init :=
  ⟨fun h => absurd rfl h, fun _ hb => absurd hb not_mem_nil⟩

theorem Packed.ready (h : Packed t) :
    t.arena.ready.chunks ≠ [] ∧ Packed ⟨t.arena.ready, t.blocks⟩ := by
  unfold LabelArena.ready
  split_ifs with hnil
  · refine ⟨cons_ne_nil _ _, fun _ => ⟨kLabelArenaChunkSize, rfl, Nat.zero_le _, by decide, by decide⟩,
      fun b hb => ?_⟩
    have hlt := (h.before b hb).1
    rw [hnil] at hlt
    exact absurd hlt (Nat.not_lt_zero _)
  · exact ⟨hnil, h⟩

theorem Packed.step (h : Packed t) (hr : Valid base r) (hwrap : t.arena.NoWrap r)
    (hok : t.arena.labelArenaAlloc r = .ok (b, a')) :
    Sound base t.blocks r b a' ∧ Packed ⟨a', t.blocks ++ [b]⟩ := by
  obtain ⟨hne, hready⟩ := h.ready
  obtain ⟨lastSz, hlast, hoffset, hmin, hmax⟩ := hready.last hne
  obtain ⟨n, hn⟩ := hr.2.1
  obtain ⟨hdvd, hle, -⟩ := roundUp_facts hn (hoffset.trans_lt hmax)
  have hlen := length_pos_iff.2 hne
  rcases labelArenaAlloc_cases hok with ⟨chunkSz, hsize, hmin', hmax', rfl, rfl⟩ | ⟨hfit, rfl, rfl⟩
  · refine ⟨⟨rfl, hr.2.2 _, ⟨chunkSz, getElem?_concat_length, ?_⟩, fun b hb heq => ?_⟩,
      fun _ => ⟨chunkSz, by simp, hsize, hmin', hmax'⟩, fun b hb => ?_⟩
    · simpa using hsize
    · exact absurd heq (hready.before b hb).1.ne
    · rw [length_append, length_singleton, Nat.add_sub_cancel]
      rcases mem_append.1 hb with hb | hb
      · have hlt := (hready.before b hb).1
        exact ⟨Nat.lt_succ_of_lt hlt, fun heq => absurd heq hlt.ne⟩
      · rw [mem_singleton.1 hb]
        exact ⟨Nat.lt_succ_self _, fun _ => (Nat.zero_add _).le⟩
  · have hsum : (t.arena.aligned r + r.size).toNat = (t.arena.aligned r).toNat + r.size.toNat :=
      BitVec.toNat_add_of_lt hwrap
    have hend : (t.arena.aligned r).toNat + r.size.toNat ≤ lastSz.toNat := by
      rw [← hsum]
      exact hfit.trans hmin
    refine ⟨⟨rfl, (Nat.dvd_add_right (hr.2.2 _)).2 hdvd, ⟨lastSz, hlast, hend⟩,
      fun b hb heq => Or.inl (((hready.before b hb).2 heq).trans hle)⟩,
      fun _ => ⟨lastSz, hlast, hsum ▸ hend, hmin, hmax⟩, fun b hb => ?_⟩
    rcases mem_append.1 hb with hb | hb
    · obtain ⟨hlt, hbefore⟩ := hready.before b hb
      refine ⟨hlt, fun heq => (hbefore heq).trans (hle.trans ?_)⟩
      exact (Nat.le_add_right _ _).trans hsum.ge
    · rw [mem_singleton.1 hb]
      exact ⟨Nat.sub_lt hlen Nat.one_pos, fun _ => hsum.ge⟩

-- A wrapped sum is at least the size of a vector that cannot be made, so the block is cut
-- out of the chunk that is there.
theorem Packed.noWrap (h : Packed t) (hr : Valid base r)
    (hok : t.arena.labelArenaAlloc r = .ok (b, a')) (hsound : Sound base t.blocks r b a') :
    t.arena.NoWrap r := by
  obtain ⟨hne, hready⟩ := h.ready
  obtain ⟨lastSz, hlast, hoffset, hmin, hmax⟩ := hready.last hne
  obtain ⟨n, hn⟩ := hr.2.1
  obtain ⟨-, -, hle⟩ := roundUp_facts hn (hoffset.trans_lt hmax)
  obtain ⟨chunkSz, hget, hinside⟩ := hsound.inside
  unfold NoWrap
  rcases labelArenaAlloc_cases hok with ⟨chunkSz', hsize, -, hmax', rfl, rfl⟩ | ⟨-, rfl, rfl⟩
  · exact Nat.add_lt_add_of_le_of_lt hle (hsize.trans_lt hmax')
  · exact hinside.trans_lt chunkSz.isLt

end

end LabelArena

open LabelArena

/-- In every run whose sums do not wrap, the next block is aligned, inside its chunk and apart
from the earlier ones if and only if its own sum does not wrap. -/
theorem labelArenaAlloc_sound_iff (base : ℕ → ℕ) {t : Traced}
    (h : Run.Reaches (fun t r => Valid base r ∧ t.arena.NoWrap r) Traced.alloc .init t)
    {r : ArenaRequest} (hr : Valid base r) {b : ArenaBlock} {a' : LabelArena}
    (hok : t.arena.labelArenaAlloc r = .ok (b, a')) :
    Sound base t.blocks r b a' ↔ t.arena.NoWrap r := by
  have hpacked : Packed t := by
    refine h.invariant packed_init fun t r t' ht hr hstep => ?_
    obtain ⟨⟨b, a'⟩, hok, rfl⟩ := Run.map_eq_ok hstep
    exact (ht.step hr.1 hr.2 hok).2
  exact ⟨hpacked.noWrap hr hok, fun hwrap => (hpacked.step hr hwrap hok).1⟩

/-- A block larger than a chunk behind a small one. -/
theorem labelArenaAlloc_large :
    ∃ t b a', Run.Reaches (fun t r => Valid (fun _ => 16) r ∧ t.arena.NoWrap r) Traced.alloc .init
        t ∧ labelArenaAlloc t.arena ⟨70000#64, 8#64⟩ = .ok (b, a') ∧ b.chunk = 1 ∧
      Sound (fun _ => 16) t.blocks ⟨70000#64, 8#64⟩ b a' := by
  have hfirst : Run.Reaches (fun t r => Valid (fun _ => 16) r ∧ t.arena.NoWrap r) Traced.alloc
      .init ⟨⟨[65536#64], 5#64⟩, [⟨0, 0#64, 5#64⟩]⟩ :=
    .single ⟨⟨5#64, 1#64⟩, ⟨⟨by decide, ⟨0, rfl⟩, fun _ => Nat.one_dvd _⟩, by decide⟩, rfl⟩
  refine ⟨_, _, _, hfirst, rfl, rfl, (labelArenaAlloc_sound_iff _ hfirst ?_ rfl).2 (by decide)⟩
  exact ⟨by decide, ⟨3, rfl⟩, fun _ => ⟨2, rfl⟩⟩

/-- One byte, then `2 ^ 64 - 1` bytes: the sum of the offset and the size is zero. -/
theorem labelArenaAlloc_wraps :
    ∃ t b a', Run.Reaches (fun _ r => Valid (fun _ => 16) r) Traced.alloc .init t ∧
      Valid (fun _ => 16) ⟨0xFFFFFFFFFFFFFFFF#64, 1#64⟩ ∧
      labelArenaAlloc t.arena ⟨0xFFFFFFFFFFFFFFFF#64, 1#64⟩ = .ok (b, a') ∧
      ¬ Sound (fun _ => 16) t.blocks ⟨0xFFFFFFFFFFFFFFFF#64, 1#64⟩ b a' := by
  have hvalid : ∀ size : Word, 0 < size.toNat → Valid (fun _ => 16) ⟨size, 1#64⟩ :=
    fun size hsize => ⟨hsize, ⟨0, rfl⟩, fun _ => Nat.one_dvd _⟩
  refine ⟨⟨⟨[65536#64], 1#64⟩, [⟨0, 0#64, 1#64⟩]⟩, _, _,
    .single ⟨⟨1#64, 1#64⟩, hvalid _ (by decide), rfl⟩, hvalid _ (by decide), rfl, fun h => ?_⟩
  obtain ⟨chunkSz, hget, hinside⟩ := h.inside
  exact absurd (hinside.trans_lt chunkSz.isLt) (by decide)

end PromTCS
