import Mathlib.Data.Set.Insert

/-!
# Lists spilled to a keyed store

Each label has a list of elements, kept in memory or spilled to a store, under a key made
of the label. Different labels may have one key. A label is looked up in memory, then in
the store, and in the store only if its name is known.

The lists are here sets. `read` is what a lookup finds, and the lemmas say when an
insertion, a load and a spill leave every lookup as it should be.
-/

@[ext] structure Spill {L N : Type*} (K X : Type*) (name : L → N) where
  mem : L → Option (Set X)
  disk : K → Set X
  known : Set N
  known_of_mem : ∀ {l}, mem l ≠ none → name l ∈ known

namespace Spill

open Function

variable {L N K X : Type*} {name : L → N} (key : L → K)

def read (s : Spill K X name) (l : L) : Set X :=
  match s.mem l with
  | some xs => xs
  | none => {x | name l ∈ s.known ∧ x ∈ s.disk (key l)}

variable {s : Spill K X name} {l : L}

theorem read_of_mem {xs : Set X} (h : s.mem l = some xs) : s.read key l = xs := by
  simp only [read, h]

theorem read_of_disk (h : s.mem l = none) (hname : name l ∈ s.known) :
    s.read key l = s.disk (key l) := by
  simp only [read, h, hname, true_and, Set.ofPred_mem_eq]

theorem read_of_unknown (hname : name l ∉ s.known) : s.read key l = ∅ := by
  have hmem : s.mem l = none := by
    by_contra hmem
    exact hname (s.known_of_mem hmem)
  simp only [read, hmem, hname, false_and, Set.ofPred_false]

theorem read_congr {s' : Spill K X name} (hmem : s'.mem l = s.mem l)
    (hknown : name l ∈ s'.known ↔ name l ∈ s.known)
    (hdisk : s.mem l = none → s'.disk (key l) = s.disk (key l)) :
    s'.read key l = s.read key l := by
  cases h : s.mem l with
  | some xs => rw [read_of_mem key (hmem.trans h), read_of_mem key h]
  | none => simp only [read, hmem, h, hknown, hdisk h]

/-! ## Insertion -/

variable [DecidableEq L]

def insert (s : Spill K X name) (l : L) (x : X) : Spill K X name where
  mem := update s.mem l (some (Insert.insert x ((s.mem l).getD ∅)))
  disk := s.disk
  known := Insert.insert (name l) s.known
  known_of_mem {l'} h := by
    by_cases hl : l' = l
    · exact Or.inl (congrArg name hl)
    · rw [update_of_ne hl] at h
      exact Or.inr (s.known_of_mem h)

def Insertable (s : Spill K X name) (l : L) (x : X) : Prop :=
  s.mem l ≠ none ∨
    (name l ∈ s.known ∧ s.disk (key l) ⊆ {x}) ∨
    (name l ∉ s.known ∧ ∀ l', name l' = name l → l' ≠ l → s.disk (key l') = ∅)

theorem read_insert_self (s : Spill K X name) (l : L) (x : X) :
    (s.insert l x).read key l = Insert.insert x ((s.mem l).getD ∅) :=
  read_of_mem key (by simp only [insert, update_self])

theorem read_insert_of_known {l' : L} (hl : l' ≠ l) (x : X)
    (hname : name l ∈ s.known ∨ name l' ≠ name l) :
    (s.insert l x).read key l' = s.read key l' := by
  refine read_congr key ?_ ?_ fun _ => rfl
  · simp only [insert, update_of_ne hl]
  · simp only [insert, Set.mem_insert_iff, or_iff_right_iff_imp]
    intro heq
    rcases hname with hname | hne
    · rwa [heq]
    · exact absurd heq hne

theorem read_insert_of_new {l' : L} (hl : l' ≠ l) (x : X) (hname : name l ∉ s.known)
    (heq : name l' = name l) : (s.insert l x).read key l' = s.disk (key l') := by
  refine read_of_disk key ?_ (Or.inl heq)
  have hmem : s.mem l' = none := by
    by_contra hmem
    exact hname (heq ▸ s.known_of_mem hmem)
  simp only [insert, update_of_ne hl, hmem]

theorem read_insert_iff (s : Spill K X name) (l : L) (x : X) :
    ((s.insert l x).read key l = Insert.insert x (s.read key l) ∧
      ∀ l' ≠ l, (s.insert l x).read key l' = s.read key l') ↔ s.Insertable key l x := by
  rw [read_insert_self]
  cases hmem : s.mem l with
  | some xs =>
    have hname : name l ∈ s.known := s.known_of_mem (by simp [hmem])
    refine iff_of_true ⟨?_, fun l' hl => read_insert_of_known key hl x (Or.inl hname)⟩
      (Or.inl (by simp [hmem]))
    rw [read_of_mem key hmem, Option.getD_some]
  | none =>
    rw [Insertable, hmem, Option.getD_none]
    by_cases hname : name l ∈ s.known
    · simp only [ne_eq, not_true_eq_false, hname, true_and, false_and, or_false, false_or,
        read_of_disk key hmem hname]
      constructor
      · rintro ⟨heq, -⟩ y hy
        have hins : y ∈ Insert.insert x (∅ : Set X) := heq ▸ Or.inr hy
        simpa using hins
      · intro hsub
        refine ⟨?_, fun l' hl => read_insert_of_known key hl x (Or.inl hname)⟩
        rw [Set.insert_eq x (s.disk (key l)), Set.union_eq_self_of_subset_right hsub]
        simp
    · simp only [ne_eq, not_true_eq_false, hname, not_false_eq_true, true_and, false_and,
        false_or, read_of_unknown key hname]
      constructor
      · intro h l' heq hl
        rw [← read_insert_of_new key hl x hname heq, h l' hl]
        exact read_of_unknown key (heq ▸ hname)
      · intro h l' hl
        by_cases heq : name l' = name l
        · rw [read_insert_of_new key hl x hname heq, h l' heq hl]
          exact (read_of_unknown key (heq ▸ hname)).symm
        · exact read_insert_of_known key hl x (Or.inr heq)

/-! ## Load -/

def load (s : Spill K X name) (l : L) (hname : name l ∈ s.known) :
    Spill K X name where
  mem := update s.mem l (some (s.disk (key l)))
  disk := s.disk
  known := s.known
  known_of_mem {l'} h := by
    by_cases hl : l' = l
    · exact hl ▸ hname
    · rw [update_of_ne hl] at h
      exact s.known_of_mem h

theorem read_load (hmem : s.mem l = none) (hname : name l ∈ s.known) (l' : L) :
    (s.load key l hname).read key l' = s.read key l' := by
  by_cases hl : l' = l
  · rw [hl, read_of_disk key hmem hname]
    exact read_of_mem key (by simp only [load, update_self])
  · refine read_congr key ?_ Iff.rfl fun _ => rfl
    simp only [load, update_of_ne hl]

/-! ## Spill -/

variable [DecidableEq K]

/-- The store after the lists of `batch` are put into it one after the other. -/
def spillDisk (mem : L → Option (Set X)) (disk : K → Set X) (batch : List L) : K → Set X :=
  batch.foldl (fun d l => update d (key l) ((mem l).getD ∅)) disk

/-- The lists of `batch` leave memory for the store. -/
def spill (s : Spill K X name) (batch : List L) : Spill K X name where
  mem := fun l => if l ∈ batch then none else s.mem l
  disk := spillDisk key s.mem s.disk batch
  known := s.known
  known_of_mem {l} h := by
    refine s.known_of_mem fun hmem => h ?_
    rw [hmem, ite_self]

variable {batch : List L}

omit [DecidableEq L] in
theorem spillDisk_of_ne (mem : L → Option (Set X)) (disk : K → Set X) {k : K}
    (hk : ∀ l ∈ batch, key l ≠ k) : spillDisk key mem disk batch k = disk k := by
  induction batch generalizing disk with
  | nil => rfl
  | cons l batch ih =>
    rw [List.forall_mem_cons] at hk
    exact (ih _ hk.2).trans (update_of_ne (Ne.symm hk.1) _ _)

omit [DecidableEq L] in
theorem spillDisk_of_mem (mem : L → Option (Set X)) (disk : K → Set X) (hl : l ∈ batch) :
    ∃ l' ∈ batch, key l' = key l ∧ spillDisk key mem disk batch (key l) = (mem l').getD ∅ := by
  induction batch generalizing disk l with
  | nil => cases hl
  | cons a batch ih =>
    by_cases hlater : ∃ b ∈ batch, key b = key l
    · obtain ⟨b, hb, hkey⟩ := hlater
      obtain ⟨l', hl', hkey', hdisk⟩ :=
        ih (update disk (key a) ((mem a).getD ∅)) hb
      rw [hkey] at hkey' hdisk
      exact ⟨l', List.mem_cons_of_mem a hl', hkey', hdisk⟩
    · have hne : ∀ b ∈ batch, key b ≠ key l := fun b hb hkey => hlater ⟨b, hb, hkey⟩
      rcases List.mem_cons.1 hl with rfl | hl
      · exact ⟨l, List.mem_cons_self, rfl,
          (spillDisk_of_ne key _ _ hne).trans (update_self _ _ _)⟩
      · exact absurd rfl (hne l hl)

def Spillable (s : Spill K X name) (batch : List L) : Prop :=
  ∀ l ∈ batch, ∀ l', key l' = key l → name l' ∈ s.known → (s.mem l' = none ∨ l' ∈ batch) →
    s.read key l' = s.read key l

theorem read_spill_of_key (hbatch : ∀ l ∈ batch, s.mem l ≠ none) (hl : l ∈ batch) :
    ∃ l₀ ∈ batch, key l₀ = key l ∧ ∀ l', key l' = key l → name l' ∈ s.known →
      (s.mem l' = none ∨ l' ∈ batch) → (s.spill key batch).read key l' = s.read key l₀ := by
  obtain ⟨l₀, hl₀, hkey₀, hdisk⟩ := spillDisk_of_mem key s.mem s.disk hl
  refine ⟨l₀, hl₀, hkey₀, fun l' hkey hname hout => ?_⟩
  have hmem : (s.spill key batch).mem l' = none := by
    simp only [spill]
    split
    · rfl
    · exact hout.resolve_right ‹_›
  obtain ⟨xs, hxs⟩ := Option.ne_none_iff_exists'.1 (hbatch l₀ hl₀)
  rw [read_of_disk key hmem hname, hkey, read_of_mem key hxs]
  rw [hxs, Option.getD_some] at hdisk
  exact hdisk

theorem read_spill_iff (hbatch : ∀ l ∈ batch, s.mem l ≠ none) :
    (∀ l, (s.spill key batch).read key l = s.read key l) ↔ s.Spillable key batch := by
  constructor
  · intro h l hl l' hkey hname hout
    obtain ⟨l₀, -, -, hread⟩ := read_spill_of_key key hbatch hl
    rw [← h l', ← h l, hread l' hkey hname hout,
      hread l rfl (s.known_of_mem (hbatch l hl)) (Or.inr hl)]
  · intro h l
    by_cases hname : name l ∈ s.known
    · by_cases hshare : (s.mem l = none ∨ l ∈ batch) ∧ ∃ a ∈ batch, key a = key l
      · obtain ⟨hout, a, ha, hkey⟩ := hshare
        obtain ⟨l₀, hl₀, hkey₀, hread⟩ := read_spill_of_key key hbatch ha
        rw [hread l hkey.symm hname hout]
        exact (h l₀ hl₀ l (hkey.symm.trans hkey₀.symm) hname hout).symm
      · have hkeep : l ∉ batch := fun hl => hshare ⟨Or.inr hl, l, hl, rfl⟩
        refine read_congr key (if_neg hkeep) Iff.rfl fun hmem => ?_
        refine spillDisk_of_ne key _ _ fun a ha hkey => ?_
        exact hshare ⟨Or.inl hmem, a, ha, hkey⟩
    · rw [read_of_unknown key hname]
      exact read_of_unknown key hname

end Spill
