import ConfinedFs.Proofs.Layer.Isolation

/-!
A tree in memory mounted on another one. Whatever a path is asked about is asked of one of the two
trees, under the names that the path has there, and the answer comes back under the names that the
caller knows.
-/

namespace ConfinedFs.Mount

open ConfinedFs.Path

variable {α : Type} {point p q : Path} {n : Name}

/-- A tree in memory mounted at a path of another one. -/
def overMemories (point : Path) : Mount (Memory × Memory) (Memory.Handle ⊕ Memory.Handle) :=
  attach (Memory.fileSystem.within Part.first Sum.inl) point
    (Memory.fileSystem.within Part.second Sum.inr)

/-- Is the path at or below the mountpoint? -/
def isInside (point p : Path) : Bool := decide (point.names <+: p.names)

/-- The names of a path in the tree that it leads to. -/
def namesThere (point p : Path) : Key :=
  if isInside point p then p.names.drop point.names.length else p.names

/-- One of the two trees. -/
def half : Bool → Memory × Memory → Memory
  | true, s => s.2
  | false, s => s.1

def halfPart : Bool → Part (Memory × Memory) Memory
  | true => Part.second
  | false => Part.first

def halfHandle : Bool → Memory.Handle → Memory.Handle ⊕ Memory.Handle
  | true => Sum.inr
  | false => Sum.inl

theorem halfPart_get (mounted : Bool) (s : Memory × Memory) :
    (halfPart mounted).get s = half mounted s := by
  cases mounted <;> rfl

theorem halfPart_set (mounted : Bool) (s : Memory × Memory) :
    (halfPart mounted).set (half mounted s) s = s := by
  cases mounted <;> rfl

theorem half_set (mounted : Bool) (m : Memory) (s : Memory × Memory) :
    half mounted ((halfPart mounted).set m s) = m := by
  cases mounted <;> rfl

theorem half_not_set (mounted : Bool) (m : Memory) (s : Memory × Memory) :
    half (!mounted) ((halfPart mounted).set m s) = half (!mounted) s := by
  cases mounted <;> rfl

theorem isInside_iff : isInside point p = true ↔ point.names <+: p.names := decide_eq_true_iff

theorem route_path (point p : Path) :
    (route point.fromTop p).path = ofNames (namesThere point p) := by
  unfold namesThere
  by_cases h : point.names <+: p.names
  · rw [route_of_starts h, if_pos (isInside_iff.2 h)]
    rfl
  · rw [route_of_not_starts h, if_neg (mt isInside_iff.1 h), ← fromTop_eq]
    rfl

theorem side_overMemories (point p : Path) :
    (overMemories point).side (route point.fromTop p) =
      Memory.fileSystem.within (halfPart (isInside point p)) (halfHandle (isInside point p)) := by
  rw [overMemories, side_route]
  by_cases h : point.names <+: p.names
  · rw [if_pos h, isInside_iff.2 h]
    rfl
  · rw [if_neg h, Bool.eq_false_iff.2 (mt isInside_iff.1 h)]
    rfl

/-- What is below a directory is on the same side unless it is the mountpoint. -/
theorem isInside_concat (hq : q.names = p.names ++ [n]) (hother : q.names ≠ point.names) :
    isInside point q = isInside point p := by
  rw [hq] at hother
  rw [Bool.eq_iff_iff, isInside_iff, isInside_iff, hq, List.prefix_concat_iff,
    or_iff_right hother.symm]

theorem namesThere_concat (hq : q.names = p.names ++ [n])
    (hside : isInside point q = isInside point p) :
    namesThere point q = namesThere point p ++ [n] := by
  unfold namesThere
  rw [hside, hq]
  split
  · next hinside => exact List.drop_append_of_le_length (isInside_iff.1 hinside).length_le
  · rfl

/-- An answer of one tree that leaves both as they are. -/
theorem within_query (f : Memory → Except FileError α) (mounted : Bool) (s : Memory × Memory) :
    (Action.query f).within (halfPart mounted) s = (f (half mounted s), s) := by
  rw [Action.within_apply, halfPart_get, Action.query_apply, halfPart_set]

theorem query_bind_pure {β : Type} (f : Memory → Except FileError α) (g : α → β) (mounted : Bool)
    (s : Memory × Memory) : ((Action.query f).within (halfPart mounted) >>= fun a => pure (g a)) s =
      ((f (half mounted s)).map g, s) := by
  rw [Action.bind_pure_apply, within_query]

theorem stat_overMemories (point p : Path) (s : Memory × Memory) :
    (overMemories point).fileSystem.stat p s =
      (((half (isInside point p) s).stat (ofNames (namesThere point p))).map (·.named p), s) := by
  have hstat : (overMemories point).fileSystem.stat p =
      ((overMemories point).side (route point.fromTop p)).stat (route point.fromTop p).path >>=
        fun d => pure (d.named p) := rfl
  rw [hstat, side_overMemories, route_path]
  exact query_bind_pure (Memory.stat · _) _ _ s

theorem lstat_overMemories (point p : Path) (s : Memory × Memory) :
    (overMemories point).fileSystem.lstat p s =
      (((half (isInside point p) s).lstat (ofNames (namesThere point p))).map (·.named p), s) := by
  have hlstat : (overMemories point).fileSystem.lstat p =
      ((overMemories point).side (route point.fromTop p)).lstat (route point.fromTop p).path >>=
        fun d => pure (d.named p) := rfl
  rw [hlstat, side_overMemories, route_path]
  exact query_bind_pure (Memory.lstat · _) _ _ s

/-- A file of one tree with the handle that the mount gives out for it. -/
def handedOut (mounted : Bool) (p : Path) (f : OpenFile Memory.Handle) :
    OpenFile (Memory.Handle ⊕ Memory.Handle) :=
  (f.withHandle (halfHandle mounted f.handle)).withName p

theorem handedOut_bind (x : Action FileError Memory (OpenFile Memory.Handle)) (rename : Path → Path)
    (mounted : Bool) (s : Memory × Memory) :
    ((x.within (halfPart mounted) >>= fun f =>
        pure (f.withHandle (halfHandle mounted f.handle))) >>= fun f =>
          pure (f.withName (rename f.name))) s =
      ((x (half mounted s)).1.map fun f => handedOut mounted (rename f.name) f,
        (halfPart mounted).set (x (half mounted s)).2 s) := by
  rw [Action.bind_pure_apply, Action.bind_pure_apply, Action.within_apply, halfPart_get]
  cases (x (half mounted s)).1 <;> rfl

theorem openFile_overMemories (point p : Path) (o : OpenOptions) (s : Memory × Memory) :
    let mounted := isInside point p
    let done := Memory.openFile (ofNames (namesThere point p)) o (half mounted s)
    (overMemories point).fileSystem.openFile p o s =
      (done.1.map (handedOut mounted p), (halfPart mounted).set done.2 s) := by
  intro mounted done
  have hopen : (overMemories point).fileSystem.openFile p o =
      ((overMemories point).side (route point.fromTop p)).openFile
        (route point.fromTop p).path o >>= fun f => pure (f.withName p) := rfl
  rw [hopen, side_overMemories, route_path]
  exact handedOut_bind _ (fun _ => p) mounted s

theorem tempFile_overMemories (point dir : Path) (draws : Draws) (stem : Bytes)
    (s : Memory × Memory) :
    let mounted := isInside point dir
    let done := Memory.fileSystem.tempFile draws (ofNames (namesThere point dir)) stem
      (half mounted s)
    (overMemories point).fileSystem.tempFile draws dir stem s =
      (done.1.map fun f => handedOut mounted (dir.join f.name.baseName) f,
        (halfPart mounted).set done.2 s) := by
  intro mounted done
  have htemp : (overMemories point).fileSystem.tempFile draws dir stem =
      ((overMemories point).side (route point.fromTop dir)).tempFile draws
        (route point.fromTop dir).path stem >>=
        fun f => pure (f.withName (dir.join f.name.baseName)) := rfl
  rw [htemp, side_overMemories, route_path]
  exact handedOut_bind _ (fun name => dir.join name.baseName) mounted s

end ConfinedFs.Mount
