import PromTCS.Mem.ArtDelete

/-!
# The radix tree as a map

A sequence of insertions and removals is played on the tree and on a map. The two agree, and
no operation leaves the arrays of a node, as long as no insertion splits a prefix of which
more than eight bytes are left and no removal is from a node with 256 children.
-/

namespace PromTCS

open List Function

namespace Art

open PrefixMap ArtArrays

variable {V : Type}

inductive Op (V : Type)
  | insert (key : List Byte) (value : V)
  | insertNoUpdate (key : List Byte) (value : V)
  | delete (key : List Byte)

namespace Op

def apply (m : List Byte → Option V) : Op V → List Byte → Option V
  | insert key value => update m key (some value)
  | insertNoUpdate key value => update m key (some ((m key).getD value))
  | delete key => update m key none

def Fine (m : List Byte → Option V) : Op V → Prop
  | insert key _ => ¬ SplitsLong m key
  | insertNoUpdate key _ => ¬ SplitsLong m key
  | delete key => ¬ DeletesFromFull m key

end Op

def mapOf (ops : List (Op V)) : List Byte → Option V :=
  ops.foldl Op.apply fun _ => none

def AllFine (ops : List (Op V)) : Prop :=
  ∀ pre op post, ops = pre ++ op :: post → op.Fine (mapOf pre)

theorem mapOf_concat (ops : List (Op V)) (op : Op V) :
    mapOf (ops ++ [op]) = op.apply (mapOf ops) := by
  rw [mapOf, foldl_append, foldl_cons, foldl_nil, ← mapOf]

theorem allFine_concat {ops : List (Op V)} {op : Op V} :
    AllFine (ops ++ [op]) ↔ AllFine ops ∧ op.Fine (mapOf ops) := by
  constructor
  · intro h
    refine ⟨fun pre op' post heq => h pre op' (post ++ [op]) ?_, h ops op [] rfl⟩
    rw [heq, append_assoc, cons_append]
  · rintro ⟨h, hop⟩ pre op' post heq
    rcases eq_nil_or_concat post with rfl | ⟨post', op'', rfl⟩
    · obtain ⟨rfl, hlast⟩ := append_inj' heq rfl
      rwa [← head_eq_of_cons_eq hlast]
    · rw [concat_eq_append, ← cons_append, ← append_assoc] at heq
      exact h pre op' post' (append_inj' heq rfl).1

namespace ArtTree

def step (t : ArtTree V) : Op V → Except Fault (ArtTree V)
  | .insert key value => t.artInsert key value
  | .insertNoUpdate key value => do
    let (t, _) ← t.artInsertNoUpdate key value
    pure t
  | .delete key => do
    let (t, _) ← t.artDelete key
    pure t

variable (ops : List (Op V))

def run : Except Fault (ArtTree V) :=
  ops.foldlM step artTreeInit

/-- The tree holds the map `m`. -/
structure Holds (t : ArtTree V) (m : List Byte → Option V) : Prop where
  rep : Rep true [] t.root m
  inner : ∀ l, t.root ≠ .leaf l

variable {t : ArtTree V} {m : List Byte → Option V}

theorem holds_artTreeInit : Holds (artTreeInit : ArtTree V) fun _ => none where
  rep := by
    have hnode : NodeAt true [] [] (.alloc : ArtHeader V) (.alloc .node4) fun _ => none := by
      refine ⟨ArtHeader.stores_alloc, fun _ => rfl, nofun, nofun, represents_alloc4, ?_, nofun⟩
      rw [degree_empty]
      exact ⟨Nat.zero_le _, Nat.zero_le _⟩
    have hrep := hnode.rep (show Children _ _ fun _ _ => none from ⟨fun _ => rfl, nofun⟩)
    rwa [append_nil, show (ArtHeader.alloc : ArtHeader V).prefixLeaf = none from rfl,
      Option.map_none, branch_empty] at hrep
  inner := nofun

theorem holds_mk {node : ArtNode V} (h : Rep true [] node m) : Holds ⟨node⟩ m where
  rep := h
  inner l hl := by
    change node = .leaf l at hl
    subst hl
    cases h

theorem Holds.artSearch_eq (h : t.Holds m) (key : List Byte) : t.artSearch key = .ok (m key) :=
  h.rep.searchOpt_eq h.inner (Nat.zero_le _)

theorem Holds.step_eq (h : t.Holds m) (op : Op V) :
    (op.Fine m → ∃ t', t.step op = .ok t' ∧ t'.Holds (op.apply m)) ∧
    (¬ op.Fine m → ∃ e, t.step op = .error e) := by
  cases op with
  | insert key value =>
    obtain ⟨hlong, hshort⟩ := h.rep.insertOpt_eq h.inner nil_prefix value false
    rw [length_nil] at hlong hshort
    simp only [step, artInsert, bind]
    constructor
    · intro hfine
      obtain ⟨node, hok, hrep⟩ := hshort hfine
      exact ⟨⟨node⟩, by rw [hok]; rfl, holds_mk hrep⟩
    · intro hfine
      exact ⟨.outOfBounds, by rw [hlong (not_not.1 hfine)]; rfl⟩
  | insertNoUpdate key value =>
    obtain ⟨hlong, hshort⟩ := h.rep.insertOpt_eq h.inner nil_prefix value true
    rw [length_nil] at hlong hshort
    simp only [step, artInsertNoUpdate, bind]
    constructor
    · intro hfine
      obtain ⟨node, hok, hrep⟩ := hshort hfine
      exact ⟨⟨node⟩, by rw [hok]; rfl, holds_mk hrep⟩
    · intro hfine
      exact ⟨.outOfBounds, by rw [hlong (not_not.1 hfine)]; rfl⟩
  | delete key =>
    obtain ⟨hfull, hrest⟩ := h.rep.removeOpt_eq h.inner (Nat.zero_le key.length)
    rw [length_nil, Bool.not_true] at hfull hrest
    simp only [step, artDelete, bind]
    constructor
    · intro hfine
      obtain ⟨node, hok, hrep⟩ := hrest hfine
      exact ⟨⟨node⟩, by rw [hok]; rfl, holds_mk hrep⟩
    · intro hfine
      exact ⟨.undefined, by rw [hfull (not_not.1 hfine)]; rfl⟩

theorem run_concat (op : Op V) :
    run (ops ++ [op]) = (run ops).bind fun t => t.step op := by
  rw [run, foldlM_append, ← run]
  cases run ops with
  | error e => rfl
  | ok t => exact bind_pure (t.step op)

theorem run_eq :
    (AllFine ops → ∃ t, run ops = .ok t ∧ t.Holds (mapOf ops)) ∧
    (¬ AllFine ops → ∃ e, run ops = .error e) := by
  induction ops using List.reverseRecOn with
  | nil =>
    refine ⟨fun _ => ⟨artTreeInit, rfl, holds_artTreeInit⟩, fun hfine => absurd ?_ hfine⟩
    intro pre op post heq
    simp at heq
  | append_singleton ops op ih =>
    obtain ⟨hok, herror⟩ := ih
    rw [run_concat, mapOf_concat, allFine_concat]
    by_cases hops : AllFine ops
    · obtain ⟨t, ht, hholds⟩ := hok hops
      rw [ht, Run.ok_bind]
      obtain ⟨hfine, hbad⟩ := hholds.step_eq op
      exact ⟨fun h => hfine h.2, fun h => hbad fun hop => h ⟨hops, hop⟩⟩
    · obtain ⟨e, he⟩ := herror hops
      rw [he]
      exact ⟨fun h => absurd h.1 hops, fun _ => ⟨e, rfl⟩⟩

/-- The tree is the map, and no operation leaves the arrays of a node, if and only if every
operation finds the tree in a shape it does not damage. -/
theorem artSearch_run_iff :
    (∃ t, run ops = .ok t ∧ ∀ key, t.artSearch key = .ok (mapOf ops key)) ↔ AllFine ops := by
  obtain ⟨hok, herror⟩ := run_eq ops
  constructor
  · rintro ⟨t, ht, -⟩
    by_contra hfine
    obtain ⟨e, he⟩ := herror hfine
    rw [ht] at he
    cases he
  · intro hfine
    obtain ⟨t, ht, hholds⟩ := hok hfine
    exact ⟨t, ht, hholds.artSearch_eq⟩

/-- Two keys with twenty bytes in common, and a third that parts from them after two: eighteen
bytes less one are written into a prefix of eight. -/
theorem run_writes_outside :
    run [Op.insert (List.replicate 20 97#8 ++ [49#8]) 1,
      .insert (List.replicate 20 97#8 ++ [50#8]) 2, .insert [97#8, 97#8, 98#8] 3] =
    .error .outOfBounds :=
  Run.eq_error_of_error? (by decide +kernel)

end ArtTree

end Art

end PromTCS
