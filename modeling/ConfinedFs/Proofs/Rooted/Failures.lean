import ConfinedFs.Proofs.Layer.Operation
import ConfinedFs.Proofs.Os.Failures
import ConfinedFs.Proofs.Rooted.Creation
import ConfinedFs.Rooted.FileSystem

/-!
Requests to a confined host that fail. What is to be done is done by the last call of
the system, and nothing is changed before but that missing directories are created. So
a request that fails leaves these directories behind, and one that creates none leaves
everything as it was.
-/

namespace ConfinedFs

open ConfinedFs.Os
open ConfinedFs.Action (Keeps Spares Triple)

variable {α β : Type} {P : Tree → Prop} {r : Root} {l : Endpoint}

namespace Root

section Changing

theorem spares_openFile (r : Root) (p : Path) (o : OpenOptions) : Spares P (r.openFile p o) :=
  .bind (.query _) fun l => .when (.mapError (Call.keeps_demand .search l.dir))
    (.bind (keeps_placeOf l) fun place =>
      .andPure (.mapError (Call.spares_openAt (openFlags o) place false) _) _)

theorem spares_remove (r : Root) (p : Path) : Spares P (r.remove p) := by
  refine .bind (.query _) fun l => .bind (.ofExcept _) fun _ => .bind (keeps_placeOf l) fun place => ?_
  refine .bind (keeps_ask _) fun s => .mapError ?_ _
  exact .ite (Call.spares_rmdir place) (Call.spares_unlink place)

theorem spares_rename (r : Root) (source target : Path) : Spares P (r.rename source target) :=
  .bind (.query _) fun a => .bind (.query _) fun b => .bind (.ofExcept _) fun _ =>
    .bind (.ofExcept _) fun _ => .bind (keeps_placeOf a) fun place =>
      .bind (keeps_placeOf b) fun place' => .mapError (Call.spares_rename place place') _

theorem spares_symlink (r : Root) (target link : Path) : Spares P (r.symlink target link) :=
  .bind (.query _) fun l => .when (.throw _)
    (.bind (keeps_placeOf l) fun place => .mapError (Call.spares_symlink target place) _)

end Changing

end Root

/-- May the request create directories on the way? -/
def Operation.MakesDirs {H : Type} : Operation H α → Prop
  | openFile _ o => o.creates = true
  | rename _ _ | tempFile _ _ _ | createDirAll _ _ | symlink _ _ => True
  | stat _ | lstat _ | remove _ | readDir _ | readlink _ => False

namespace Confined

variable {c : Confined}

theorem keeps_root (c : Confined) : Keeps P c.root := by
  unfold root
  cases c.kept with
  | none => exact Root.keeps_openPath _
  | some r => exact .pure r

/-- What is done to open a file once its directory is there. -/
theorem spares_openBelow (r : Root) (p rel : Path) (o : OpenOptions) :
    Spares P (do return { handle := ← r.openFile rel o, path := p } :
      Root.Work (OpenFile FileHandle)) :=
  .andPure (Root.spares_openFile r rel o) _

/-- What is done to narrow a host once the directory is there. -/
theorem keeps_narrowTo (c : Confined) (r : Root) (rel : Path) : Keeps P (do
    if !(← r.stat rel).isDir then throw .baseNotDirectory
    let sub ← r.openRoot rel
    return if c.kept.isSome then shared sub else perCall sub.path : Root.Work Confined) :=
  .bind (Root.keeps_stat r rel) fun _ => .when (.throw _)
    (.bind (Root.keeps_openRoot r rel) fun _ => .pure _)

section Creating

variable (hmkdir : ∀ place mode, Keeps P (Call.mkdir place mode))

include hmkdir

theorem keeps_ensureAbove (r : Root) (rel : Path) : Keeps P (ensureAbove r rel) :=
  .ite (.pure _) (Root.keeps_ensureDirs hmkdir r _ _)

theorem keeps_createDirAll (c : Confined) (p : Path) (mode : UInt32) :
    Keeps P (c.createDirAll p mode) :=
  .bind (.ofExcept _) fun rel => .bind c.keeps_root fun r => Root.keeps_ensureDirs hmkdir r rel mode

theorem keeps_narrow (c : Confined) (p : Path) : Keeps P (c.narrow p) := by
  refine .bind (.ofExcept _) fun rel => .bind c.keeps_root fun r => ?_
  refine .bind (.outcome (Root.keeps_ensureDirs hmkdir r rel _)) fun made => ?_
  cases made with
  | ok => exact c.keeps_narrowTo r rel
  | error e =>
    cases e with
    | alreadyExists => exact .bind (.throw _) fun _ => c.keeps_narrowTo r rel
    | _ => exact .bind (.throw _) fun _ => c.keeps_narrowTo r rel

theorem spares_rename (c : Confined) (source target : Path) :
    Spares P (c.rename source target) :=
  .bind (.ofExcept _) fun source => .bind (.ofExcept _) fun target => .when (.throw _)
    (.bind c.keeps_root fun r => .bind (keeps_ensureAbove hmkdir r target) fun _ =>
      Root.spares_rename r source target)

theorem spares_symlink (c : Confined) (target link : Path) : Spares P (c.symlink target link) :=
  .bind (.ofExcept _) fun rel => .bind c.keeps_root fun r =>
    .bind (keeps_ensureAbove hmkdir r rel) fun _ => Root.spares_symlink r target rel

end Creating

theorem spares_openFile (c : Confined) (p : Path) {o : OpenOptions}
    (hmkdir : o.creates = true → ∀ place mode, Keeps P (Call.mkdir place mode)) :
    Spares P (c.openFile p o) := by
  refine .bind (.ofExcept _) fun rel => .bind c.keeps_root fun r => ?_
  refine Triple.ite (fun hcreates => ?_) fun _ => spares_openBelow r p rel o
  exact .bind (keeps_ensureAbove (hmkdir hcreates) r rel) fun _ => spares_openBelow r p rel o

theorem spares_remove (c : Confined) (p : Path) : Spares P (c.remove p) :=
  .bind (.ofExcept _) fun rel => .when (.throw _)
    (.bind c.keeps_root fun r => Root.spares_remove r rel)

/-- Every attempt to create a temporary file has failed before the next one. -/
theorem spares_openUnused (c : Confined)
    (hmkdir : ∀ place mode, Keeps P (Call.mkdir place mode)) (candidate : Nat → Path)
    (l : List Nat) : Spares P (c.bareFileSystem.openUnused candidate l) := by
  induction l with
  | nil => exact (Keeps.throw _).spares
  | cons i l ih =>
    have hopen := c.spares_openFile (candidate i) (o := .temporary) fun _ => hmkdir
    unfold BareFileSystem.openUnused
    refine Triple.bind (Triple.outcome hopen) fun opened => ?_
    cases opened with
    | ok f => exact Triple.pure fun _ _ => trivial
    | error e =>
      cases e with
      | alreadyExists => exact ih
      | _ => exact (Keeps.throw _).spares

theorem spares_tempFile (c : Confined) (hmkdir : ∀ place mode, Keeps P (Call.mkdir place mode))
    (draws : Draws) (dir : Path) (stem : Bytes) :
    Spares P (c.fileSystem.tempFile draws dir stem) := by
  simp only [fileSystem, BareFileSystem.unusedFile]
  generalize List.range BareFileSystem.temporaryAttempts = attempts
  refine .bind (.ofExcept _) fun rel => .bind c.keeps_root fun r => ?_
  exact .bind (Root.keeps_ensureDirs hmkdir r rel _) fun _ => c.spares_openUnused hmkdir _ attempts

/-- What creating a directory keeps is kept by every request that fails, and if it creates
none, then so is everything. -/
theorem spares_perform (c : Confined) (op : Operation FileHandle α)
    (hmkdir : op.MakesDirs → ∀ place mode, Keeps P (Call.mkdir place mode)) :
    Spares P (c.fileSystem.perform op) := by
  cases op with
  | openFile p o => exact c.spares_openFile p hmkdir
  | rename source target => exact spares_rename (hmkdir trivial) c source target
  | remove p => exact c.spares_remove p
  | tempFile draws dir stem => exact c.spares_tempFile (hmkdir trivial) draws dir stem
  | createDirAll p mode => exact (keeps_createDirAll (hmkdir trivial) c p mode).spares
  | symlink target link => exact spares_symlink (hmkdir trivial) c target link
  | stat p =>
    exact .bind (.ofExcept _) fun rel => .bind c.keeps_root fun r =>
      .andPure (Root.keeps_stat r rel).spares _
  | lstat p =>
    exact .bind (.ofExcept _) fun rel => .bind c.keeps_root fun r =>
      .andPure (Root.keeps_lstat r rel).spares _
  | readDir p =>
    exact .bind (.ofExcept _) fun rel => .bind c.keeps_root fun r =>
      .andPure (Root.keeps_readDir r rel).spares _
  | readlink p =>
    exact .bind (.ofExcept _) fun rel => .bind c.keeps_root fun r =>
      (Root.keeps_readlink r rel).spares

end Confined

end ConfinedFs
