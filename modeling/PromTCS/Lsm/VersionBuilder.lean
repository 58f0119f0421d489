import PromTCS.Lsm.Version

/-!
# Edits of a version

`VersionSet::Builder` applies edits one after another to a base version and saves the
result. A number that is deleted is noted, a file that is added takes its number out of
those again. All of this is done for each level by itself, so one level is treated here.
-/

namespace PromTCS

open List TableFile

/-- The files of one level in a `VersionEdit`. -/
structure LevelEdit where
  deletedFiles : List ℕ
  newFiles : List TableFile

/-- The sets of a builder for one level. -/
structure LevelBuilder where
  deletedFiles : List ℕ
  addedFiles : List TableFile

namespace LevelBuilder

/-- A file is inserted into the set that is ordered by `BySmallestTime`. -/
def addFile (b : LevelBuilder) (f : TableFile) : LevelBuilder where
  deletedFiles := b.deletedFiles.filter fun n => n ≠ f.number
  addedFiles :=
    if f.timeKey ∈ b.addedFiles.map timeKey then b.addedFiles else b.addedFiles ++ [f]

def apply (b : LevelBuilder) (edit : LevelEdit) : LevelBuilder :=
  edit.newFiles.foldl addFile { b with deletedFiles := b.deletedFiles ++ edit.deletedFiles }

end LevelBuilder

namespace LevelBuilder

variable {used : List ℕ} {b : LevelBuilder} {edits : List LevelEdit}

end LevelBuilder

end PromTCS
