import ConfinedFs.Proofs.Os.HostPathCalls
import ConfinedFs.Proofs.Os.OpenFiles
import ConfinedFs.Proofs.Rooted.ClearDir
import ConfinedFs.Proofs.Rooted.Failures

/-!
What the operations of a confined host do to the directories of the host, inside of its base and
outside. Each of them takes entries away or adds some, and only a move does both, after the
directories above its target have been made.
-/

namespace ConfinedFs

open ConfinedFs.Os
open ConfinedFs.Action (Keeps Triple)

variable {α : Type} {P : Tree → Prop} {t : Tree}

namespace Root

theorem keeps_openFile (hopenAt : ∀ f place strict, Keeps P (Call.openAt f place strict)) (r : Root)
    (p : Path) (o : OpenOptions) : Keeps P (r.openFile p o) :=
  .bind (.query _) fun l => .when (.mapError (Call.keeps_demand .search l.dir))
    (.bind (keeps_placeOf l) fun place => .bind (.mapError (hopenAt _ place _)) fun _ => .pure _)

theorem keeps_symlink (hsymlink : ∀ target place, Keeps P (Call.symlink target place)) (r : Root)
    (target link : Path) : Keeps P (r.symlink target link) :=
  .bind (.query _) fun l => .when (.throw _)
    (.bind (keeps_placeOf l) fun place => .mapError (hsymlink target place))

section Removing

variable (hunlink : ∀ place, Keeps P (Call.unlink place))
  (hrmdir : ∀ place, Keeps P (Call.rmdir place))

include hunlink hrmdir

theorem keeps_remove (r : Root) (p : Path) : Keeps P (r.remove p) := by
  refine .bind (.query _) fun l => .bind (.ofExcept _) fun _ => ?_
  refine .bind (keeps_placeOf l) fun place => ?_
  refine .bind (keeps_ask _) fun s => .mapError ?_
  exact .ite (hrmdir place) (hunlink place)

theorem keeps_removeAll (r : Root) (p : Path) : Keeps P (r.removeAll p) := by
  refine .bind (.query _) fun l => .bind (.ofExcept _) fun entry => .bind (.query _) fun found => ?_
  cases found with
  | none => exact .pure _
  | some s =>
    refine .bind (keeps_placeOf l) fun place => .ite ?_ (.mapError (hunlink place))
    refine .bind (.look _) fun levels => .bind (keeps_ask _) fun dir => ?_
    exact .bind (keeps_clearDir hunlink hrmdir levels dir) fun _ => .mapError (hrmdir place)

end Removing

theorem triple_remade_rename (h : t.Sound) (r : Root) (source target : Path) :
    Triple (· = t) (r.rename source target) (fun _ => Call.Remade t) fun _ => Call.Remade t := by
  have hstart : ∀ (e : FileError) s, s = t → Call.Remade t s := by
    rintro _ _ rfl
    exact .refl h
  refine Keeps.andThen (.query _) hstart fun a => Keeps.andThen (.query _) hstart fun b => ?_
  refine Keeps.andThen (.ofExcept _) hstart fun _ => Keeps.andThen (.ofExcept _) hstart fun _ => ?_
  refine (keeps_placeOf a).andThen hstart fun place => ?_
  refine (keeps_placeOf b).andThen hstart fun place' => ?_
  exact Triple.mapError (Call.triple_remade_rename h place place')

end Root

namespace Confined

section Growing

variable (hmkdir : ∀ place mode, Keeps P (Call.mkdir place mode))

include hmkdir

theorem keeps_openFile (hopenAt : ∀ f place strict, Keeps P (Call.openAt f place strict))
    (c : Confined) (p : Path) (o : OpenOptions) : Keeps P (c.openFile p o) := by
  refine .bind (.ofExcept _) fun rel => .bind c.keeps_root fun r => ?_
  exact .when (keeps_ensureAbove hmkdir r rel)
    (.bind (Root.keeps_openFile hopenAt r rel o) fun _ => .pure _)

theorem keeps_symlink (hsymlink : ∀ target place, Keeps P (Call.symlink target place))
    (c : Confined) (target link : Path) : Keeps P (c.symlink target link) :=
  .bind (.ofExcept _) fun rel => .bind c.keeps_root fun r =>
    .bind (keeps_ensureAbove hmkdir r rel) fun _ => Root.keeps_symlink hsymlink r target rel

theorem keeps_tempFile (hopenAt : ∀ f place strict, Keeps P (Call.openAt f place strict))
    (c : Confined) (draws : Draws) (dir : Path) (stem : Bytes) :
    Keeps P (c.fileSystem.tempFile draws dir stem) := by
  have hunused : ∀ (candidate : Nat → Path) (l : List Nat),
      Keeps P (c.bareFileSystem.openUnused candidate l) := by
    intro candidate l
    induction l with
    | nil => exact .throw _
    | cons i l ih =>
      unfold BareFileSystem.openUnused
      have hopened := keeps_openFile hmkdir hopenAt c (candidate i) .temporary
      refine .bind (.outcome hopened) fun opened => ?_
      cases opened with
      | ok f => exact .pure f
      | error e =>
        cases e with
        | alreadyExists => exact ih
        | _ => exact .throw _
  simp only [fileSystem, BareFileSystem.unusedFile]
  generalize List.range BareFileSystem.temporaryAttempts = attempts
  refine .bind (.ofExcept _) fun rel => .bind c.keeps_root fun r => ?_
  exact .bind (Root.keeps_ensureDirs hmkdir r rel _) fun _ => hunused _ attempts

end Growing

section Removing

variable (hunlink : ∀ place, Keeps P (Call.unlink place))
  (hrmdir : ∀ place, Keeps P (Call.rmdir place))

include hunlink hrmdir

theorem keeps_remove (c : Confined) (p : Path) : Keeps P (c.remove p) :=
  .bind (.ofExcept _) fun rel => .when (.throw _)
    (.bind c.keeps_root fun r => Root.keeps_remove hunlink hrmdir r rel)

theorem keeps_removeAll (c : Confined) (p : Path) : Keeps P (c.removeAll p) :=
  .bind (.ofExcept _) fun rel => .when (.throw _)
    (.bind c.keeps_root fun r => Root.keeps_removeAll hunlink hrmdir r rel)

end Removing

/-- The directories above the target are made first, which takes nothing away. -/
theorem triple_remade_rename (h : t.Sound) (c : Confined) (source target : Path) :
    Triple (· = t) (c.rename source target) (fun _ => Call.Remade t) fun _ => Call.Remade t := by
  have hstart : ∀ (e : FileError) s, s = t → Call.Remade t s := by
    rintro _ _ rfl
    exact .refl h
  refine Keeps.andThen (.ofExcept _) hstart fun source => ?_
  refine Keeps.andThen (.ofExcept _) hstart fun target => ?_
  refine Triple.guarded (fun _ => hstart .baseDirRename) fun _ => ?_
  refine c.keeps_root.andThen hstart fun r => ?_
  have hgrown : Keeps (Call.Grown t) (ensureAbove r target) :=
    keeps_ensureAbove Call.keeps_grown_mkdir r target
  refine Triple.bind (Q := fun _ => Call.Grown t) (hgrown.weaken ?_ (fun _ _ hs => hs) ?_) ?_
  · rintro _ rfl
    exact .refl h
  · exact fun _ _ hs => hs.remade
  · refine fun _ => Triple.of_fixed fun u hu => ?_
    exact (Root.triple_remade_rename hu.2 r source target).weaken (fun _ hs => hs)
      (fun _ _ hs => hu.then_remade hs) fun _ _ hs => hu.then_remade hs

/-- What any operation may leave of the tree. -/
theorem remade_perform (h : t.Sound) (c : Confined) (op : Operation FileHandle α) :
    Call.Remade t (c.fileSystem.perform op t).2 := by
  have hgrown : ∀ {x : Root.Work α}, Keeps (Call.Grown t) x → Call.Remade t (x t).2 :=
    fun hx => (hx.apply (.refl h)).remade
  have hdropped : ∀ {x : Root.Work α}, Keeps (Call.Dropped t) x → Call.Remade t (x t).2 :=
    fun hx => (hx.apply (.refl h)).remade
  cases op with
  | openFile p o =>
    exact hgrown (keeps_openFile Call.keeps_grown_mkdir Call.keeps_grown_openAt c p o)
  | tempFile draws dir stem =>
    exact hgrown (keeps_tempFile Call.keeps_grown_mkdir Call.keeps_grown_openAt c draws dir stem)
  | createDirAll p mode => exact hgrown (keeps_createDirAll Call.keeps_grown_mkdir c p mode)
  | symlink target link =>
    exact hgrown (keeps_symlink Call.keeps_grown_mkdir Call.keeps_grown_symlink c target link)
  | remove p => exact hdropped (keeps_remove Call.keeps_dropped_unlink Call.keeps_dropped_rmdir c p)
  | rename source target => exact (triple_remade_rename h c source target).apply rfl
  | stat p =>
    exact hgrown (.bind (.ofExcept _) fun rel => .bind c.keeps_root fun r =>
      .bind (Root.keeps_stat r rel) fun _ => .pure _)
  | lstat p =>
    exact hgrown (.bind (.ofExcept _) fun rel => .bind c.keeps_root fun r =>
      .bind (Root.keeps_lstat r rel) fun _ => .pure _)
  | readDir p =>
    exact hgrown (.bind (.ofExcept _) fun rel => .bind c.keeps_root fun r =>
      .bind (Root.keeps_readDir r rel) fun _ => .pure _)
  | readlink p =>
    exact hgrown (.bind (.ofExcept _) fun rel => .bind c.keeps_root fun r =>
      Root.keeps_readlink r rel)

theorem remade_removeAll (h : t.Sound) (c : Confined) (p : Path) :
    Call.Remade t (c.removeAll p t).2 :=
  ((keeps_removeAll Call.keeps_dropped_unlink Call.keeps_dropped_rmdir c p).apply (.refl h)).remade

theorem remade_narrow (h : t.Sound) (c : Confined) (p : Path) : Call.Remade t (c.narrow p t).2 :=
  ((keeps_narrow Call.keeps_grown_mkdir c p).apply (.refl h)).remade

end Confined

end ConfinedFs
