import PromTCS.Head.TreeHead
import PromTCS.Lib.RowMajor

/-!
# The flat forward index

The head finds a series by its pair of ids, through one hash table for each metric.
`migrate_to_flat_forward_index` moves a rectangle of these tables into one matrix,
which later migrations make larger. Reads of the rectangle go to the matrix, while
`set_to_forward_index` writes to the tables in every case.

Ids are counted from one. The tables of `forward_index_` are never null, since the
constructors create all of them. A migration runs alone, so the version that readers
compare is left out.
-/

namespace PromTCS

open List Function

/-- A `thmap_t` from source ids to objects. -/
abbrev Thmap (α : Type*) := ℕ → Option α

namespace Thmap

variable {α : Type*}

/-- `thmap_create`. -/
def create : Thmap α := fun _ => none

/-- `thmap_put`: an entry that is present stays. -/
def put (t : Thmap α) (k : ℕ) (v : α) : Thmap α :=
  if (t k).isSome then t else update t k (some v)

/-- `thmap_del`. -/
def del (t : Thmap α) (k : ℕ) : Thmap α := update t k none

theorem put_apply (t : Thmap α) (k k' : ℕ) (v : α) :
    t.put k v k' = if k' = k ∧ t k = none then some v else t k' := by
  rw [put]
  cases hk : t k with
  | some w => simp
  | none => by_cases h : k' = k <;> simp [h]

end Thmap

open Thmap

structure ForwardIndex (α : Type*) where
  forwardIndex : List (Thmap α)
  flatForwardIndex : Option (List (Option α))
  migrateMid : ℕ
  migrateSgid : ℕ

namespace ForwardIndex

open RowMajor

variable {α : Type*}

/-- A constructor of `TreeHead` creates `max_metric_num_` tables. -/
def init (maxMetricNum : ℕ) : ForwardIndex α where
  forwardIndex := List.replicate maxMetricNum create
  flatForwardIndex := none
  migrateMid := 0
  migrateSgid := 0

/-- `thmap_get(forward_index_[mid], &sgid, …)`. -/
def thmapGet (h : ForwardIndex α) (mid sgid : ℕ) : Option α :=
  h.forwardIndex.getD mid create sgid

variable (h : ForwardIndex α) (sgid mid : ℕ)

def getFromForwardIndex : Option α :=
  if h.forwardIndex.length ≤ mid then none else h.thmapGet mid sgid

def setToForwardIndex (ms : α) : ForwardIndex α :=
  -- missing tables are appended up to that of `mid`
  let tables := h.forwardIndex ++
    List.replicate (mid + 1 - h.forwardIndex.length) create
  { h with forwardIndex := tables.modify mid (·.put sgid ms) }

def Migrated : Prop :=
  h.flatForwardIndex.isSome ∧ mid ≤ h.migrateMid ∧ sgid ≤ h.migrateSgid

instance (h : ForwardIndex α) (sgid mid : ℕ) : Decidable (h.Migrated sgid mid) :=
  inferInstanceAs (Decidable (_ ∧ _ ∧ _))

/-- `flat_forward_index_[(mid-1)*migrate_sgid_ + (sgid-1)]`. -/
def flatCell : Option α :=
  ((h.flatForwardIndex.getD [])[cell h.migrateSgid mid sgid]?).join

def readFlatForwardIndex : Option α :=
  if h.Migrated sgid mid then h.flatCell sgid mid else h.getFromForwardIndex sgid mid

variable (tables : List (Thmap α))

def delRectangle (sgid mid : ℕ) : List (Thmap α) :=
  forEach (upTo 1 mid) (upTo 1 sgid) (fun i j tables => tables.modify i (·.del j)) tables

/-- The matrix of a later migration, where `fresh` is what the allocated memory holds:
the old rectangle, the new columns of its rows and the new rows. -/
def regrow (fresh : List (Option α)) :
    List (Option α) :=
  let flat := fill sgid (fun i j => h.flatCell j i) (upTo 1 h.migrateMid)
    (upTo 1 h.migrateSgid) fresh
  let flat :=
    if h.migrateSgid < sgid then
      fill sgid h.thmapGet (upTo 1 h.migrateMid) (upTo (h.migrateSgid + 1) sgid) flat
    else flat
  if h.migrateMid < mid then
    fill sgid h.thmapGet (upTo (h.migrateMid + 1) mid) (upTo 1 sgid) flat
  else flat

section Migrate

/- What memory holds that `malloc` returned. -/
variable (heap : ℕ → Option α)

def allocFlatForwardIndex (mid sgid : ℕ) : List (Option α) :=
  (List.range (mid * sgid)).map heap

def migrateToFlatForwardIndex (h : ForwardIndex α) (sgid mid : ℕ) : Bool × ForwardIndex α :=
  if h.Migrated sgid mid then (true, h)
  else if h.forwardIndex.length ≤ mid then (false, h)
  else if h.flatForwardIndex.isNone then
    (true,
      { forwardIndex := delRectangle h.forwardIndex sgid mid
        flatForwardIndex := some (fill sgid h.thmapGet (upTo 1 mid) (upTo 1 sgid)
          (allocFlatForwardIndex heap mid sgid))
        migrateMid := mid
        migrateSgid := sgid })
  else if mid < h.migrateMid ∨ sgid < h.migrateSgid then (false, h)
  else
    (true,
      { forwardIndex := delRectangle h.forwardIndex sgid mid
        flatForwardIndex := some (h.regrow sgid mid (allocFlatForwardIndex heap mid sgid))
        migrateMid := mid
        migrateSgid := sgid })

end Migrate

inductive Op (α : Type*) where
  | set (sgid mid : ℕ) (ms : α)
  | migrate (sgid mid : ℕ)

def Op.Valid : Op α → Prop
  | .set sgid mid _ => 1 ≤ sgid ∧ 1 ≤ mid
  | .migrate sgid mid => 1 ≤ sgid ∧ 1 ≤ mid

variable (heap : ℕ → Option α)

def step (h : ForwardIndex α) : Op α → ForwardIndex α
  | .set sgid mid ms => h.setToForwardIndex sgid mid ms
  | .migrate sgid mid => (h.migrateToFlatForwardIndex heap sgid mid).2

def run (maxMetricNum : ℕ) (ops : List (Op α)) : ForwardIndex α :=
  ops.foldl (step heap) (init maxMetricNum)

def stored : List (Op α) → ℕ × ℕ → Option α :=
  List.foldl (fun latest op =>
    match op with
    | .set sgid mid ms => update latest (sgid, mid) (some ms)
    | .migrate _ _ => latest) (fun _ => none)

def Effective (h : ForwardIndex α) : Op α → Prop
  | .set sgid mid ms =>
    if h.Migrated sgid mid then h.flatCell sgid mid = some ms
    else h.thmapGet mid sgid = none ∨ h.thmapGet mid sgid = some ms
  | .migrate _ _ => True

instance [DecidableEq α] (h : ForwardIndex α) (op : Op α) : Decidable (h.Effective op) := by
  cases op <;> unfold Effective <;> infer_instance

/-! ### The tables -/

theorem getFromForwardIndex_eq :
    h.getFromForwardIndex sgid mid = h.thmapGet mid sgid := by
  rw [getFromForwardIndex, thmapGet]
  split
  next hle => rw [getD_eq_default _ _ hle, create]
  next => rfl

theorem getD_modify (mid m : ℕ) (f : Thmap α → Thmap α)
    (hmid : mid < tables.length ∨ f create = create) :
    (tables.modify mid f).getD m create =
      if m = mid then f (tables.getD m create) else tables.getD m create := by
  rw [getD_eq_getElem?_getD, getElem?_modify, getD_eq_getElem?_getD]
  by_cases hm : m = mid
  · subst hm
    by_cases hlt : m < tables.length
    · simp [getElem?_eq_getElem hlt]
    · rw [getElem?_eq_none (Nat.le_of_not_lt hlt), if_pos rfl]
      exact (hmid.resolve_left hlt).symm
  · rw [if_neg hm]
    cases tables[m]? <;> simp [Ne.symm hm]

theorem getD_append_create (n m : ℕ) :
    (tables ++ List.replicate n create).getD m create =
      tables.getD m create := by
  by_cases hm : m < tables.length
  · exact getD_append _ _ _ _ hm
  · have hle := Nat.le_of_not_lt hm
    rw [getD_append_right _ _ _ _ hle, getD_eq_default tables _ hle,
      getD_eq_getElem?_getD, getElem?_replicate]
    split <;> rfl

theorem thmapGet_set (ms : α) (s m : ℕ) :
    (h.setToForwardIndex sgid mid ms).thmapGet m s =
      if (s, m) = (sgid, mid) ∧ h.thmapGet mid sgid = none then some ms
      else h.thmapGet m s := by
  have hlt : mid < (h.forwardIndex ++
      List.replicate (mid + 1 - h.forwardIndex.length) create).length := by
    rw [length_append, length_replicate]
    omega
  rw [thmapGet, setToForwardIndex, getD_modify _ _ _ _ (Or.inl hlt), getD_append_create]
  by_cases hm : m = mid
  · subst hm
    rw [if_pos rfl, put_apply]
    simp [thmapGet]
  · simp [hm, thmapGet]

theorem getD_delRectangle (sgid mid s m : ℕ) :
    (delRectangle tables sgid mid).getD m create s =
      if (m, s) ∈ upTo 1 mid ×ˢ upTo 1 sgid then none
      else tables.getD m create s := by
  rw [delRectangle, forEach_eq_foldl]
  induction upTo 1 mid ×ˢ upTo 1 sgid generalizing tables with
  | nil => simp
  | cons p ps ih =>
    have hdel : create.del p.2 = (create : Thmap α) :=
      update_eq_self _ _
    rw [foldl_cons, ih, getD_modify _ _ _ _ (Or.inr hdel)]
    by_cases hps : (m, s) ∈ ps
    · rw [if_pos hps, if_pos (mem_cons_of_mem _ hps)]
    rw [if_neg hps]
    by_cases heq : (m, s) = p
    · subst heq
      simp [del]
    · have hcons : (m, s) ∉ p :: ps := fun h => (mem_cons.mp h).elim heq hps
      rw [if_neg hcons]
      split
      next hm =>
        have hs : s ≠ p.2 := fun hs => heq (Prod.ext hm hs)
        exact update_of_ne hs _ _
      next => rfl

/-! ### The matrix -/

variable {h : ForwardIndex α} {s m sgid mid : ℕ}

theorem readFlatForwardIndex_of_migrated (hin : h.Migrated s m) :
    h.readFlatForwardIndex s m = h.flatCell s m :=
  if_pos hin

theorem readFlatForwardIndex_of_not_migrated (hout : ¬h.Migrated s m) :
    h.readFlatForwardIndex s m = h.thmapGet m s := by
  rw [readFlatForwardIndex, if_neg hout, getFromForwardIndex_eq]

theorem read_rectangle {flat : List (Option α)} (hflat : ∀ s m, 1 ≤ s → s ≤ sgid → 1 ≤ m → m ≤ mid →
      flat[cell sgid m s]? = some (h.readFlatForwardIndex s m))
    (hgrow : ∀ s m, h.Migrated s m → m ≤ mid ∧ s ≤ sgid) (hs : 1 ≤ s) (hm : 1 ≤ m) :
    readFlatForwardIndex ⟨delRectangle h.forwardIndex sgid mid, some flat, mid, sgid⟩ s m =
      h.readFlatForwardIndex s m := by
  by_cases hin : m ≤ mid ∧ s ≤ sgid
  · rw [readFlatForwardIndex_of_migrated ⟨rfl, hin⟩, flatCell]
    exact congrArg Option.join (hflat s m hs hin.2 hm hin.1)
  · have hrect : (m, s) ∉ upTo 1 mid ×ˢ upTo 1 sgid := by
      simp only [mem_product, mem_upTo]
      exact fun h => hin ⟨h.1.2, h.2.2⟩
    rw [readFlatForwardIndex_of_not_migrated fun h => hin h.2,
      readFlatForwardIndex_of_not_migrated fun h => hin (hgrow s m h)]
    exact (getD_delRectangle _ _ _ _ _).trans (if_neg hrect)

theorem getElem?_regrow {fresh : List (Option α)} (hsome : h.flatForwardIndex.isSome)
    (hsgid : h.migrateSgid ≤ sgid) (hlen : fresh.length = mid * sgid) (hs : 1 ≤ s) (hs' : s ≤ sgid)
    (hm : 1 ≤ m) (hm' : m ≤ mid) :
    (h.regrow sgid mid fresh)[cell sgid m s]? = some (h.readFlatForwardIndex s m) := by
  have hlt : cell sgid m s < fresh.length := hlen ▸ cell_lt hm hm' hs hs'
  -- the old rectangle, then the new columns
  set old := fill sgid (fun i j => h.flatCell j i) (upTo 1 h.migrateMid)
    (upTo 1 h.migrateSgid) fresh with hold
  set columns := if h.migrateSgid < sgid then
      fill sgid h.thmapGet (upTo 1 h.migrateMid) (upTo (h.migrateSgid + 1) sgid) old
    else old with hcolumns
  have hlen₁ : old.length = fresh.length := length_fill _ _ _ _ _
  have hlen₂ : columns.length = fresh.length := by
    rw [hcolumns]
    split <;> simp only [length_fill, hlen₁]
  have hregrow : h.regrow sgid mid fresh = if h.migrateMid < mid then
      fill sgid h.thmapGet (upTo (h.migrateMid + 1) mid) (upTo 1 sgid) columns
    else columns := rfl
  by_cases hrow : m ≤ h.migrateMid
  · have hlast : (h.regrow sgid mid fresh)[cell sgid m s]? = columns[cell sgid m s]? := by
      rw [hregrow]
      split
      next =>
        rw [getElem?_fill_upTo (Nat.le_add_left _ _) le_rfl le_rfl hm hs hs' (hlen₂ ▸ hlt),
          if_neg fun h => Nat.not_succ_le_self _ (h.1.1.trans hrow)]
      next => rfl
    by_cases hcol : s ≤ h.migrateSgid
    · have hin : h.Migrated s m := ⟨hsome, hrow, hcol⟩
      have hmiddle : columns[cell sgid m s]? = old[cell sgid m s]? := by
        rw [hcolumns]
        split
        next =>
          rw [getElem?_fill_upTo le_rfl (Nat.le_add_left _ _) le_rfl hm hs hs'
            (hlen₁ ▸ hlt), if_neg fun h => Nat.not_succ_le_self _ (h.2.1.trans hcol)]
        next => rfl
      rw [hlast, hmiddle, hold, getElem?_fill_upTo le_rfl le_rfl hsgid hm hs hs' hlt,
        if_pos ⟨⟨hm, hrow⟩, hs, hcol⟩, readFlatForwardIndex_of_migrated hin]
    · have hout : ¬h.Migrated s m := fun h => hcol h.2.2
      have hcol' := Nat.lt_of_not_le hcol
      rw [hlast, hcolumns, if_pos (hcol'.trans_le hs'),
        getElem?_fill_upTo le_rfl (Nat.le_add_left _ _) le_rfl hm hs hs' (hlen₁ ▸ hlt),
        if_pos ⟨⟨hm, hrow⟩, hcol', hs'⟩, readFlatForwardIndex_of_not_migrated hout]
  · have hout : ¬h.Migrated s m := fun h => hrow h.2.1
    have hrow' := Nat.lt_of_not_le hrow
    rw [hregrow, if_pos (hrow'.trans_le hm'),
      getElem?_fill_upTo (Nat.le_add_left _ _) le_rfl le_rfl hm hs hs' (hlen₂ ▸ hlt),
      if_pos ⟨⟨hrow', hm'⟩, hs, hs'⟩, readFlatForwardIndex_of_not_migrated hout]

theorem readFlatForwardIndex_migrate (heap : ℕ → Option α) (h : ForwardIndex α) (sgid mid : ℕ)
    (hs : 1 ≤ s) (hm : 1 ≤ m) :
    (h.migrateToFlatForwardIndex heap sgid mid).2.readFlatForwardIndex s m =
      h.readFlatForwardIndex s m := by
  have hlen : (allocFlatForwardIndex heap mid sgid).length = mid * sgid := by
    rw [allocFlatForwardIndex, length_map, length_range]
  unfold migrateToFlatForwardIndex
  split_ifs with hin hsize hnone hsmall
  · rfl
  · rfl
  · have hout : ∀ s m, ¬h.Migrated s m := fun s m hin =>
      Option.not_isSome_iff_eq_none.mpr (Option.isNone_iff_eq_none.mp hnone) hin.1
    refine read_rectangle (fun s m hs hs' hm hm' => ?_) (fun s m h => absurd h (hout s m)) hs hm
    rw [getElem?_fill_upTo le_rfl le_rfl le_rfl hm hs hs' (hlen ▸ cell_lt hm hm' hs hs'),
      if_pos ⟨⟨hm, hm'⟩, hs, hs'⟩, readFlatForwardIndex_of_not_migrated (hout s m)]
  · rfl
  · have hsome : h.flatForwardIndex.isSome :=
      Option.isSome_iff_ne_none.mpr (mt Option.isNone_iff_eq_none.mpr hnone)
    have hmid : h.migrateMid ≤ mid := Nat.le_of_not_lt fun h => hsmall (Or.inl h)
    have hsgid : h.migrateSgid ≤ sgid := Nat.le_of_not_lt fun h => hsmall (Or.inr h)
    exact read_rectangle
      (fun s m hs hs' hm hm' => getElem?_regrow hsome hsgid hlen hs hs' hm hm')
      (fun s m h => ⟨h.2.1.trans hmid, h.2.2.trans hsgid⟩) hs hm

theorem readFlatForwardIndex_set (h : ForwardIndex α) (sgid mid : ℕ) (ms : α) (s m : ℕ) :
    (h.setToForwardIndex sgid mid ms).readFlatForwardIndex s m =
      if (s, m) = (sgid, mid) ∧ ¬h.Migrated sgid mid ∧ h.thmapGet mid sgid = none then some ms
      else h.readFlatForwardIndex s m := by
  by_cases hin : h.Migrated s m
  · have hcell : (h.setToForwardIndex sgid mid ms).readFlatForwardIndex s m = h.flatCell s m :=
      readFlatForwardIndex_of_migrated (h := h.setToForwardIndex sgid mid ms) hin
    rw [hcell, readFlatForwardIndex_of_migrated hin, if_neg]
    rintro ⟨heq, hout, _⟩
    cases heq
    exact hout hin
  · have hget : (h.setToForwardIndex sgid mid ms).readFlatForwardIndex s m =
        (h.setToForwardIndex sgid mid ms).thmapGet m s :=
      readFlatForwardIndex_of_not_migrated (h := h.setToForwardIndex sgid mid ms) hin
    rw [hget, thmapGet_set, readFlatForwardIndex_of_not_migrated hin]
    refine if_congr (and_congr_right fun heq => ?_) rfl rfl
    cases heq
    exact (and_iff_right hin).symm

/-! ### Runs -/

theorem run_concat (n : ℕ) (ops : List (Op α)) (op : Op α) :
    run heap n (ops ++ [op]) = step heap (run heap n ops) op := by
  rw [run, foldl_append]
  rfl

theorem stored_concat_set (ops : List (Op α)) (sgid mid : ℕ) (ms : α) :
    stored (ops ++ [.set sgid mid ms]) =
      update (stored ops) (sgid, mid) (some ms) := by
  rw [stored, foldl_append]
  rfl

theorem stored_concat_migrate (ops : List (Op α)) (sgid mid : ℕ) :
    stored (ops ++ [.migrate sgid mid]) = stored ops := by
  rw [stored, foldl_append]
  rfl

def ReadsStored (h : ForwardIndex α) (latest : ℕ × ℕ → Option α) : Prop :=
  ∀ s m, 1 ≤ s → 1 ≤ m → h.readFlatForwardIndex s m = latest (s, m)

theorem readsStored_init (n : ℕ) : ReadsStored (init n : ForwardIndex α) (stored []) := by
  intro s m _ _
  have hout : ¬(init n : ForwardIndex α).Migrated s m := fun h => Bool.false_ne_true h.1
  rw [readFlatForwardIndex_of_not_migrated hout, thmapGet, init,
    ← nil_append (List.replicate n _), getD_append_create]
  rfl

theorem ReadsStored.set_iff {latest : ℕ × ℕ → Option α} (hreads : ReadsStored h latest)
    (hs : 1 ≤ sgid) (hm : 1 ≤ mid) (ms : α) :
    ReadsStored (h.setToForwardIndex sgid mid ms)
        (update latest (sgid, mid) (some ms)) ↔
      h.Effective (.set sgid mid ms) := by
  have hother : ∀ s m, (s, m) ≠ (sgid, mid) → 1 ≤ s → 1 ≤ m →
      (h.setToForwardIndex sgid mid ms).readFlatForwardIndex s m =
        update latest (sgid, mid) (some ms) (s, m) := fun s m hne hs hm => by
    rw [readFlatForwardIndex_set, if_neg fun h => hne h.1, update_of_ne hne]
    exact hreads s m hs hm
  have hself : ReadsStored (h.setToForwardIndex sgid mid ms)
        (update latest (sgid, mid) (some ms)) ↔
      (h.setToForwardIndex sgid mid ms).readFlatForwardIndex sgid mid = some ms := by
    constructor
    · intro hall
      rw [hall sgid mid hs hm, update_self]
    · intro hms s m hs' hm'
      by_cases heq : (s, m) = (sgid, mid)
      · cases heq
        rw [hms, update_self]
      · exact hother s m heq hs' hm'
  rw [hself, readFlatForwardIndex_set, Effective]
  by_cases hin : h.Migrated sgid mid
  · rw [if_neg fun hset => hset.2.1 hin, if_pos hin, readFlatForwardIndex_of_migrated hin]
  · rw [if_neg hin, readFlatForwardIndex_of_not_migrated hin]
    cases hget : h.thmapGet mid sgid with
    | none => simp [hin]
    | some old => simp

theorem readsStored_concat_iff (n : ℕ) {ops : List (Op α)} {op : Op α}
    (hop : op.Valid) (hreads : ReadsStored (run heap n ops) (stored ops)) :
    ReadsStored (run heap n (ops ++ [op])) (stored (ops ++ [op])) ↔
      (run heap n ops).Effective op := by
  rw [run_concat]
  cases op with
  | set sgid mid ms =>
    rw [stored_concat_set]
    exact hreads.set_iff hop.1 hop.2 ms
  | migrate sgid mid =>
    rw [stored_concat_migrate]
    refine iff_of_true (fun s m hs hm => ?_) trivial
    rw [step, readFlatForwardIndex_migrate heap _ _ _ hs hm]
    exact hreads s m hs hm

/-- Along a run of sets and migrations every read returns the series most recently stored,
exactly if every set takes effect. -/
theorem readFlatForwardIndex_stored_iff (maxMetricNum : ℕ)
    (ops : List (Op α)) (hops : ∀ op ∈ ops, op.Valid) :
    (∀ pre, pre <+: ops → ReadsStored (run heap maxMetricNum pre) (stored pre)) ↔
      ∀ pre op, pre ++ [op] <+: ops → (run heap maxMetricNum pre).Effective op := by
  induction ops using List.reverseRecOn with
  | nil =>
    refine iff_of_true (fun pre hpre => ?_) (fun pre op hpre => ?_)
    · rw [prefix_nil.mp hpre]
      exact readsStored_init maxMetricNum
    · exact absurd (prefix_nil.mp hpre) (by simp)
  | append_singleton ops op ih =>
    have hlast : op.Valid := hops op (mem_append_right _ mem_cons_self)
    have ih := ih fun o ho => hops o (mem_append_left _ ho)
    constructor
    · intro hreads pre o hpre
      have hpre' : pre <+: ops ++ [op] := (prefix_append pre [o]).trans hpre
      rcases prefix_concat_iff.mp hpre with heq | hpre
      · obtain ⟨rfl, hoo⟩ := append_inj' heq rfl
        cases hoo
        exact (readsStored_concat_iff heap maxMetricNum hlast (hreads pre hpre')).mp
          (hreads _ prefix_rfl)
      · exact ih.mp (fun pre hpre => hreads pre (hpre.trans (prefix_append _ _)))
          pre o hpre
    · intro heff pre hpre
      have hops := ih.mpr fun pre o hpre => heff pre o (hpre.trans (prefix_append _ _))
      rcases prefix_concat_iff.mp hpre with rfl | hpre
      · exact (readsStored_concat_iff heap maxMetricNum hlast
          (hops ops prefix_rfl)).mpr (heff ops op prefix_rfl)
      · exact hops pre hpre

def growingRun : List (Op ℕ) :=
  [.set 1 1 10, .migrate 1 1, .set 2 1 20, .migrate 2 1]

theorem readFlatForwardIndex_stored_growingRun :
    ReadsStored (run (fun _ => none) maxMetricNum growingRun) (stored growingRun) := by
  refine (readFlatForwardIndex_stored_iff (fun _ => none) maxMetricNum growingRun
    (by simp [growingRun, Op.Valid])).mpr (fun pre op hpre => ?_) growingRun prefix_rfl
  rcases pre with _ | ⟨a, _ | ⟨b, _ | ⟨c, _ | ⟨d, pre⟩⟩⟩⟩ <;>
    simp [growingRun] at hpre
  · subst hpre
    decide +kernel
  · obtain ⟨rfl, rfl⟩ := hpre
    trivial
  · obtain ⟨rfl, rfl, rfl⟩ := hpre
    decide +kernel
  · obtain ⟨rfl, rfl, rfl, rfl⟩ := hpre
    trivial

/-- A series that the matrix has no entry for is stored and not found. -/
theorem readFlatForwardIndex_misses :
    ∃ ops : List (Op ℕ), (∀ op ∈ ops, op.Valid) ∧ stored ops (1, 1) = some 10 ∧
      (run (fun _ => none) maxMetricNum ops).readFlatForwardIndex 1 1 = none :=
  ⟨[.migrate 1 1, .set 1 1 10], by simp [Op.Valid], by decide +kernel, by decide +kernel⟩

end ForwardIndex

end PromTCS
