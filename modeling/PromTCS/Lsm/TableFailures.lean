import PromTCS.Lsm.TableFile

/-!
# Failures while tables are built

`BuildTablesTree` creates a file when the first entry of a partition comes, and at the end
finishes, syncs and closes all of them. Each of these calls may fail. The status of a `Sync`
replaces that of the one before, so that only the last one counts; and when a file cannot be
created, the function returns at once and leaves those it has created.

A file is named by its partition. An `Add` that fails is reported by the `Finish` of its table.
-/

namespace PromTCS

open List TableFile

structure FileCalls where
  create : Word → Bool
  finish : Word → Bool
  sync : Word → Bool
  close : Word → Bool
  iter : Bool

/-- What `BuildTablesTree` returns, the files it has created and those in the directory. -/
structure TablesBuilt where
  ok : Bool
  created : List Word
  directory : List Word
deriving DecidableEq

def openFiles (create : Word → Bool) : List Word → List Entry → Except (List Word) (List Word)
  | files, [] => .ok files
  | files, e :: iter =>
    let boundary := partitionOf partitionLength e.time
    if boundary ∈ files then openFiles create files iter
    else if create boundary then openFiles create (files ++ [boundary]) iter
    else .error files

/-- `BuildTablesTree`; `order` is the order in which the map `files` is traversed. -/
def buildTablesStatus (calls : FileCalls) (order : List Word → List Word) (iter : List Entry) :
    TablesBuilt :=
  match openFiles calls.create [] iter with
  | .error files => ⟨false, files, files⟩
  | .ok files =>
    let s := files.all calls.finish
    let s := if s then (order files).foldl (fun _ f => calls.sync f) s else s
    let s := (order files).foldl (fun s f => if s then calls.close f else s) s
    let s := if calls.iter then s else false
    ⟨s, files, if s then files else []⟩

namespace TablesBuilt

def Clean (calls : FileCalls) (r : TablesBuilt) : Prop :=
  (r.ok = true → ∀ f ∈ r.created, calls.finish f = true ∧ calls.sync f = true ∧
    calls.close f = true) ∧ (r.ok = false → r.directory = [])

end TablesBuilt

def addBoundary (files : List Word) (e : Entry) : List Word :=
  if partitionOf partitionLength e.time ∈ files then files
  else files ++ [partitionOf partitionLength e.time]

theorem map_timeBoundary_addToTables (next : ℕ) (metas : List TableFile) (e : Entry) :
    (addToTables next metas e).map timeBoundary =
      addBoundary (metas.map timeBoundary) e := by
  have hany : (metas.any fun f => f.timeBoundary == partitionOf partitionLength e.time) = true ↔
      partitionOf partitionLength e.time ∈ metas.map timeBoundary := by
    simp [any_eq_true]
  rw [addToTables, addToTablesAt, addBoundary]
  by_cases hold : partitionOf partitionLength e.time ∈ metas.map timeBoundary
  · rw [if_pos (hany.2 hold), if_pos hold, map_map]
    exact map_congr_left fun f _ => (addToTable_fields _ e f).1
  · rw [if_neg (mt hany.1 hold), if_neg hold, map_append]
    rfl

theorem foldl_addBoundary (next : ℕ) (iter : List Entry) :
    iter.foldl addBoundary [] = (buildTablesTree next iter).map timeBoundary := by
  have hloop : ∀ metas : List TableFile, (iter.foldl (addToTables next) metas).map
      timeBoundary = iter.foldl addBoundary (metas.map timeBoundary) := by
    induction iter with
    | nil => exact fun _ => rfl
    | cons e iter ih =>
      intro metas
      rw [foldl_cons, ih, map_timeBoundary_addToTables, foldl_cons]
  exact (hloop []).symm

theorem prefix_foldl_addBoundary (files : List Word) (iter : List Entry) :
    files <+: iter.foldl addBoundary files := by
  induction iter generalizing files with
  | nil => exact prefix_rfl
  | cons e iter ih =>
    refine List.IsPrefix.trans ?_ (ih _)
    rw [addBoundary]
    split
    · exact prefix_rfl
    · exact prefix_append _ _

theorem openFiles_cases (create : Word → Bool) (files : List Word) (iter : List Entry)
    (hfiles : ∀ f ∈ files, create f = true) :
    (openFiles create files iter = .ok (iter.foldl addBoundary files) ∧
      ∀ f ∈ iter.foldl addBoundary files, create f = true) ∨
    ∃ opened f rest, openFiles create files iter = .error opened ∧ create f = false ∧
      (∀ f ∈ opened, create f = true) ∧ iter.foldl addBoundary files = opened ++ f :: rest := by
  induction iter generalizing files with
  | nil => exact Or.inl ⟨rfl, hfiles⟩
  | cons e iter ih =>
    rw [openFiles, foldl_cons, addBoundary]
    by_cases hold : partitionOf partitionLength e.time ∈ files
    · rw [if_pos hold, if_pos hold]
      exact ih files hfiles
    · rw [if_neg hold, if_neg hold]
      by_cases hcreate : create (partitionOf partitionLength e.time) = true
      · rw [if_pos hcreate]
        refine ih _ fun f hf => ?_
        rcases mem_append.1 hf with hf | hf
        · exact hfiles f hf
        · rwa [mem_singleton.1 hf]
      · rw [if_neg hcreate]
        obtain ⟨rest, hrest⟩ := prefix_foldl_addBoundary
          (files ++ [partitionOf partitionLength e.time]) iter
        rw [append_assoc] at hrest
        exact Or.inr ⟨files, _, rest, rfl, Bool.not_eq_true _ ▸ hcreate, hfiles, hrest.symm⟩

theorem foldl_sync (sync : Word → Bool) (files : List Word) :
    files.foldl (fun _ f => sync f) true = true ↔ ∀ f ∈ files.getLast?, sync f = true := by
  rcases eq_nil_or_concat' files with rfl | ⟨init, last, rfl⟩
  · simp
  · simp

theorem foldl_close (close : Word → Bool) (files : List Word) (s : Bool) :
    files.foldl (fun s f => if s then close f else s) s = (s && files.all close) := by
  induction files generalizing s with
  | nil => rw [foldl_nil, all_nil, Bool.and_true]
  | cons f files ih =>
    rw [foldl_cons, ih, all_cons]
    cases s with
    | true => rfl
    | false => rfl

theorem exists_status {calls : FileCalls} {order : List Word → List Word}
    (horder : ∀ l, (order l).Perm l) {iter : List Entry} {files : List Word}
    (hopen : openFiles calls.create [] iter = .ok files) :
    ∃ s, buildTablesStatus calls order iter = ⟨s, files, if s then files else []⟩ ∧
      (s = true ↔ (∀ f ∈ files, calls.finish f = true) ∧ (∀ f ∈ files, calls.close f = true) ∧
        calls.iter = true ∧ ∀ f ∈ (order files).getLast?, calls.sync f = true) := by
  refine ⟨_, by rw [buildTablesStatus, hopen], ?_⟩
  have hclose : (order files).all calls.close = true ↔ ∀ f ∈ files, calls.close f = true := by
    rw [all_eq_true]
    exact forall_congr' fun f => by rw [(horder files).mem_iff]
  rw [foldl_close]
  cases hiter : calls.iter with
  | false => simp
  | true =>
    by_cases hfinish : files.all calls.finish = true
    · rw [if_pos rfl, hfinish, if_pos rfl, Bool.and_eq_true, foldl_sync, hclose]
      rw [all_eq_true] at hfinish
      exact ⟨fun h => ⟨hfinish, h.2, rfl, h.1⟩, fun h => ⟨h.2.2.2, h.2.1⟩⟩
    · rw [Bool.not_eq_true] at hfinish
      rw [if_pos rfl, hfinish, if_neg Bool.false_ne_true, Bool.false_and]
      refine iff_of_false Bool.false_ne_true fun h => ?_
      rw [← Bool.not_eq_true, all_eq_true] at hfinish
      exact hfinish h.1

/-- The files are built cleanly exactly if none but the first fails to be created alone, and a
`Sync` fails only if the last one does, or a `Finish`, a `Close` or the iterator. -/
theorem buildTablesTree_clean_iff (calls : FileCalls) (order : List Word → List Word)
    (horder : ∀ l, (order l).Perm l) (next : ℕ) (iter : List Entry) (files : List Word)
    (hfiles : files = (buildTablesTree next iter).map timeBoundary) :
    (buildTablesStatus calls order iter).Clean calls ↔
      (∀ f ∈ files, calls.create f = false → ∀ f₀ ∈ files.head?, calls.create f₀ = false) ∧
      ((∀ f ∈ files, calls.create f = true ∧ calls.finish f = true ∧ calls.close f = true) →
        calls.iter = true → (∀ f ∈ (order files).getLast?, calls.sync f = true) →
          ∀ f ∈ files, calls.sync f = true) := by
  rw [← foldl_addBoundary] at hfiles
  rcases openFiles_cases calls.create [] iter (nofun) with
    ⟨hopen, hcreate⟩ | ⟨opened, f, rest, hopen, hf, hopened, hsplit⟩
  · rw [← hfiles] at hopen hcreate
    have hfirst : ∀ f ∈ files, calls.create f = false →
        ∀ f₀ ∈ files.head?, calls.create f₀ = false := by
      intro f hf hfalse
      rw [hcreate f hf] at hfalse
      cases hfalse
    obtain ⟨s, hstatus, hok⟩ := exists_status horder hopen
    rw [hstatus, TablesBuilt.Clean]
    constructor
    · rintro ⟨hcomplete, -⟩
      refine ⟨hfirst, fun hcalls hiter hsync f hf => (hcomplete (hok.2 ?_) f hf).2.1⟩
      exact ⟨fun f hf => (hcalls f hf).2.1, fun f hf => (hcalls f hf).2.2, hiter, hsync⟩
    · rintro ⟨-, hsyncs⟩
      refine ⟨fun hs f hf => ?_, fun hs => ?_⟩
      · obtain ⟨hfinish, hclose, hiter, hlast⟩ := hok.1 hs
        have hsync := hsyncs (fun f hf => ⟨hcreate f hf, hfinish f hf, hclose f hf⟩) hiter hlast
        exact ⟨hfinish f hf, hsync f hf, hclose f hf⟩
      · dsimp only at hs ⊢
        rw [hs, if_neg Bool.false_ne_true]
  · -- The early return leaves the files that are open.
    rw [hsplit] at hfiles
    have hmem : f ∈ files := hfiles ▸ mem_append_right _ mem_cons_self
    rw [buildTablesStatus, hopen, TablesBuilt.Clean]
    constructor
    · rintro ⟨-, hleft⟩
      refine ⟨fun _ _ _ f₀ hf₀ => ?_, fun hcalls => ?_⟩
      · rw [hfiles, show opened = [] from hleft rfl] at hf₀
        obtain rfl : f = f₀ := Option.some.inj hf₀
        exact hf
      · have htrue := (hcalls f hmem).1
        rw [hf] at htrue
        cases htrue
    · rintro ⟨hfirst, -⟩
      refine ⟨fun hok => absurd hok Bool.false_ne_true, fun _ => ?_⟩
      cases opened with
      | nil => rfl
      | cons f₀ opened =>
        have hfalse := hfirst f hmem hf f₀ (hfiles ▸ rfl)
        rw [hopened f₀ mem_cons_self] at hfalse
        cases hfalse

def failing (create sync : Word) : FileCalls where
  create f := f ≠ create
  finish _ := true
  sync f := f ≠ sync
  close _ := true
  iter := true

/-- The `Sync` of the last file fails, and none is left. -/
theorem buildTablesTree_clean_lastSync :
    buildTablesStatus (failing 1 7200000) id takingTurns = ⟨false, [0, 7200000], []⟩ ∧
      (buildTablesStatus (failing 1 7200000) id takingTurns).Clean (failing 1 7200000) := by
  refine ⟨by decide +kernel, (buildTablesTree_clean_iff (failing 1 7200000) id
    (fun _ => List.Perm.refl _) 0 takingTurns _ rfl).2 ?_⟩
  rw [show (buildTablesTree 0 takingTurns).map timeBoundary = [0, 7200000] by
    decide +kernel]
  exact ⟨by simp [failing], fun _ _ hlast => absurd (hlast 7200000 rfl) (by decide)⟩

/-- The `Sync` of the first file fails and that of the last succeeds; the second file cannot be
created and the first one stays. -/
theorem buildTablesTree_not_clean :
    (buildTablesStatus (failing 1 0) id takingTurns = ⟨true, [0, 7200000], [0, 7200000]⟩ ∧
      ¬ (buildTablesStatus (failing 1 0) id takingTurns).Clean (failing 1 0)) ∧
    buildTablesStatus (failing 7200000 1) id takingTurns = ⟨false, [0], [0]⟩ ∧
      ¬ (buildTablesStatus (failing 7200000 1) id takingTurns).Clean (failing 7200000 1) := by
  have hsync : buildTablesStatus (failing 1 0) id takingTurns =
      ⟨true, [0, 7200000], [0, 7200000]⟩ := by decide +kernel
  have hcreate : buildTablesStatus (failing 7200000 1) id takingTurns = ⟨false, [0], [0]⟩ := by
    decide +kernel
  refine ⟨⟨hsync, fun h => ?_⟩, hcreate, fun h => ?_⟩
  · rw [hsync] at h
    exact absurd (h.1 rfl 0 mem_cons_self).2.1 (by decide)
  · rw [hcreate] at h
    exact absurd (h.2 rfl) (by decide)

end PromTCS
