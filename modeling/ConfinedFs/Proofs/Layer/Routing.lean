import ConfinedFs.Layer.Mount
import ConfinedFs.Proofs.Layer.Operation
import ConfinedFs.Proofs.Path.Names

/-!
The routing of a mount. A path leads to the mounted filesystem if its names start with
those of the mountpoint, and what comes after them is the path there. Whatever is asked
for, at most one of the two filesystems hears of it, and it is asked for the same thing
once.
-/

namespace ConfinedFs

open ConfinedFs.Path

variable {σ H α : Type} {point p : Path}

/-- What follows is told how an operation has come out. -/
theorem Action.outcome_bind_apply {ε ε' β : Type} (x : Action ε σ α)
    (f : Except ε α → Action ε' σ β) (s : σ) : (x.outcome >>= f) s = f (x s).1 (x s).2 := rfl

namespace Mount

theorem remainder?_fromTop (point p : Path) :
    point.fromTop.remainder? p.fromTop =
      if point.names <+: p.names then some (below (p.names.drop point.names.length)) else none := by
  rw [remainder?_eq (isAbsolute_fromTop point) (isAbsolute_fromTop p), names_fromTop, names_fromTop]

theorem route_of_starts (h : point.names <+: p.names) :
    route point.fromTop p = .mounted (ofNames (p.names.drop point.names.length)) := by
  rw [route, remainder?_fromTop, if_pos h]
  exact congrArg Route.mounted (fromTop_below _)

theorem route_of_not_starts (h : ¬ point.names <+: p.names) :
    route point.fromTop p = .below p.fromTop := by
  rw [route, remainder?_fromTop, if_neg h]

theorem isMounted_iff (point p : Path) :
    (route point.fromTop p).isMounted = true ↔ point.names <+: p.names := by
  by_cases h : point.names <+: p.names
  · rw [route_of_starts h]
    exact ⟨fun _ => h, fun _ => rfl⟩
  · rw [route_of_not_starts h]
    exact ⟨nofun, fun hp => absurd hp h⟩

/-- The path on the mounted side is the only one there that, put below the mountpoint,
is the path that was asked for. -/
theorem route_mounted (h : point.names <+: p.names) :
    ∃ s : Path, route point.fromTop p = .mounted s ∧ s.isAbsolute = true ∧ s.clean = s ∧
      point.fromTop.join s = p.fromTop ∧
      ∀ s' : Path, s'.isAbsolute = true → s'.clean = s' → point.fromTop.join s' = p.fromTop →
        s' = s := by
  obtain ⟨rest, hrest⟩ := h
  have hdrop : p.names.drop point.names.length = rest := by rw [← hrest, List.drop_left]
  have hjoin : point.fromTop.join (ofNames rest) = p.fromTop := by
    rw [fromTop_eq, fromTop_eq, join_ofNames, hrest]
  refine ⟨ofNames rest, ?_, isAbsolute_ofNames rest, clean_ofNames rest, hjoin, ?_⟩
  · rw [route_of_starts ⟨rest, hrest⟩, hdrop]
  · intro s' habsolute hclean hjoin'
    have hs' : s' = ofNames s'.names := by rw [← clean_eq_ofNames habsolute, hclean]
    rw [← hjoin, hs', fromTop_eq, join_ofNames, join_ofNames] at hjoin'
    rw [hs', List.append_cancel_left (ofNames_injective hjoin')]

theorem isPoint_iff (point p : Path) : isPoint point.fromTop p = true ↔ p.names = point.names := by
  rw [isPoint, fromTop_eq, fromTop_eq, same_ofNames_iff]

end Mount

namespace Operation

/-- The path that decides about the side. -/
def lead : Operation H α → Path
  | openFile p _ | stat p | lstat p | remove p | readDir p | createDirAll p _ | readlink p => p
  | tempFile _ dir _ => dir
  | rename source _ => source
  | symlink _ link => link

/-- The error of a request that a mount does not pass on: it would move or remove the
mountpoint, or move something from one side to the other. -/
def refusal (point : Path) : Operation H α → Option FileError
  | rename source target =>
    if source.names = point.names ∨ target.names = point.names then some .baseDirRename
    else if (point.names <+: source.names) ↔ (point.names <+: target.names) then none
    else some .crossDevice
  | remove p => if p.names = point.names then some .baseDirRemove else none
  | _ => none

/-- Is the mountpoint to be shown in the listing that is asked for? -/
def ShowsPoint (point : Path) : Operation H α → Prop
  | readDir p => point.names ≠ [] ∧ p.names = point.names.dropLast
  | _ => False

/-- The request as it is passed on, with the paths on the side that they lead to. The
target of a link is kept as it is. -/
def routed (point : Path) : Operation H α → Operation H α
  | openFile p o => openFile (Mount.route point.fromTop p).path o
  | stat p => stat (Mount.route point.fromTop p).path
  | lstat p => lstat (Mount.route point.fromTop p).path
  | rename source target =>
    rename (Mount.route point.fromTop source).path (Mount.route point.fromTop target).path
  | remove p => remove (Mount.route point.fromTop p).path
  | tempFile draws dir stem => tempFile draws (Mount.route point.fromTop dir).path stem
  | readDir p => readDir (Mount.route point.fromTop p).path
  | createDirAll p mode => createDirAll (Mount.route point.fromTop p).path mode
  | symlink target link => symlink target (Mount.route point.fromTop link).path
  | readlink p => readlink (Mount.route point.fromTop p).path

/-- The answer under the names that the caller knows. -/
def relabelled : Operation H α → α → α
  | openFile p _, f => f.withName p
  | stat p, m => m.named p
  | lstat p, m => m.named p
  | tempFile _ dir _, f => f.withName (dir.join f.name.baseName)
  | readDir p, listed => ⟨listed.entries.map (DirEntry.listedIn p.fromTop)⟩
  | rename _ _, done => done
  | remove _, done => done
  | createDirAll _ _, done => done
  | symlink _ _, done => done
  | readlink _, target => target

end Operation

namespace Mount

variable {under source : FileSystem σ H}

/-- The filesystem that a request is passed on to. -/
def chosen (under : FileSystem σ H) (point : Path) (source : FileSystem σ H)
    (op : Operation H α) : FileSystem σ H :=
  if point.names <+: op.lead.names then source else under

theorem side_route (under : FileSystem σ H) (point : Path) (source : FileSystem σ H) (p : Path) :
    (attach under point source).side (route point.fromTop p) =
      if point.names <+: p.names then source else under := by
  by_cases h : point.names <+: p.names
  · rw [route_of_starts h, if_pos h]
    rfl
  · rw [route_of_not_starts h, if_neg h]
    rfl

/-- The two ends of a move that is not refused lie on one side. -/
theorem rename_eq (under : FileSystem σ H) (point : Path) (source : FileSystem σ H)
    (a b : Path) :
    (attach under point source).fileSystem.rename a b =
      match (Operation.rename a b : Operation H Unit).refusal point with
      | some e => throw e
      | none => (if point.names <+: a.names then source else under).rename
          (route point.fromTop a).path (route point.fromTop b).path := by
  have hpoint : (isPoint point.fromTop a || isPoint point.fromTop b) = true ↔
      a.names = point.names ∨ b.names = point.names := by
    rw [Bool.or_eq_true, isPoint_iff, isPoint_iff]
  have hsides : ((route point.fromTop a).isMounted != (route point.fromTop b).isMounted) = true ↔
      ¬ ((point.names <+: a.names) ↔ (point.names <+: b.names)) := by
    rw [bne_iff_ne, ne_eq, Bool.eq_iff_iff, isMounted_iff, isMounted_iff]
  rw [← side_route]
  show (if (isPoint point.fromTop a || isPoint point.fromTop b) = true then
      throw .baseDirRename >>= fun _ => _ else
      if ((route point.fromTop a).isMounted != (route point.fromTop b).isMounted) = true then
        throw .crossDevice >>= fun _ => _ else
        ((attach under point source).side (route point.fromTop a)).rename
          (route point.fromTop a).path (route point.fromTop b).path) = _
  rw [Operation.refusal]
  by_cases hends : a.names = point.names ∨ b.names = point.names
  · rw [if_pos (hpoint.2 hends), if_pos hends]
    rfl
  · rw [if_neg fun h => hends (hpoint.1 h), if_neg hends]
    by_cases hsame : (point.names <+: a.names) ↔ (point.names <+: b.names)
    · rw [if_neg fun h => hsides.1 h hsame, if_pos hsame]
    · rw [if_pos (hsides.2 hsame), if_neg hsame]
      rfl

theorem remove_eq (under : FileSystem σ H) (point : Path) (source : FileSystem σ H) (p : Path) :
    (attach under point source).fileSystem.remove p =
      match (Operation.remove p : Operation H Unit).refusal point with
      | some e => throw e
      | none => (if point.names <+: p.names then source else under).remove
          (route point.fromTop p).path := by
  rw [← side_route]
  show (if isPoint point.fromTop p = true then throw .baseDirRemove >>= fun _ => _ else
      ((attach under point source).side (route point.fromTop p)).remove
        (route point.fromTop p).path) = _
  rw [Operation.refusal]
  by_cases hpoint : p.names = point.names
  · rw [if_pos ((isPoint_iff point p).2 hpoint), if_pos hpoint]
    rfl
  · rw [if_neg fun h => hpoint ((isPoint_iff point p).1 h), if_neg hpoint]

theorem rename_point (under source : FileSystem σ H) {a b : Path}
    (h : a.fromTop = point.fromTop ∨ b.fromTop = point.fromTop) :
    (attach under point source).fileSystem.rename a b = throw .baseDirRename := by
  have hends := h.imp names_eq_of_fromTop names_eq_of_fromTop
  rw [rename_eq, Operation.refusal, if_pos hends]

theorem rename_across (under source : FileSystem σ H) {a b : Path}
    (ha : a.fromTop ≠ point.fromTop) (hb : b.fromTop ≠ point.fromTop)
    (hsides : ¬ ((point.names <+: a.names) ↔ (point.names <+: b.names))) :
    (attach under point source).fileSystem.rename a b = throw .crossDevice := by
  have hends : ¬ (a.names = point.names ∨ b.names = point.names) := by
    rintro (h | h)
    · exact ha (by rw [fromTop_eq, h, ← fromTop_eq])
    · exact hb (by rw [fromTop_eq, h, ← fromTop_eq])
  rw [rename_eq, Operation.refusal, if_neg hends, if_neg hsides]

theorem remove_point (under source : FileSystem σ H) (h : p.fromTop = point.fromTop) :
    (attach under point source).fileSystem.remove p = throw .baseDirRemove := by
  rw [remove_eq, Operation.refusal, if_pos (names_eq_of_fromTop h)]

/-- A listing in which the mountpoint has no place is that of one side. -/
theorem readDir_eq (under : FileSystem σ H) (source : FileSystem σ H)
    (h : ¬ (Operation.readDir p : Operation H Listing).ShowsPoint point) :
    (attach under point source).fileSystem.readDir p = (do
      let listed ← (if point.names <+: p.names then source else under).readDir
        (route point.fromTop p).path
      return ⟨listed.entries.map (DirEntry.listedIn p.fromTop)⟩) := by
  have hhidden : (!(route point.fromTop p).isMounted &&
      point.fromTop.dirName.same p.fromTop) = false := by
    rw [Bool.eq_false_iff, ne_eq, Bool.and_eq_true, Bool.not_eq_true', Bool.eq_false_iff, ne_eq,
      isMounted_iff, fromTop_eq, fromTop_eq, dirName_ofNames, same_ofNames_iff]
    rintro ⟨hnot, hparent⟩
    refine h ⟨?_, hparent.symm⟩
    rintro hnil
    rw [hnil] at hnot
    exact hnot List.nil_prefix
  rw [← side_route]
  have hpoint : (attach under point source).point = point.fromTop := rfl
  funext s
  simp only [fileSystem, hpoint, hhidden]
  cases hrun : ((attach under point source).side (route point.fromTop p)).readDir
      (route point.fromTop p).path s with
  | mk r s' =>
    simp only [Action.outcome_bind_apply, hrun]
    cases r with
    | ok listed =>
      rw [Action.bind_apply_of_ok hrun]
      rfl
    | error e =>
      rw [Action.bind_apply_of_error hrun]
      cases e <;> rfl

/-- At most one of the two filesystems is asked, and for the same thing. -/
theorem perform_attach (under : FileSystem σ H) (source : FileSystem σ H) {op : Operation H α}
    (h : ¬ op.ShowsPoint point) :
    (attach under point source).fileSystem.perform op =
      match op.refusal point with
      | some e => throw e
      | none => do
        let answer ← (chosen under point source op).perform (op.routed point)
        return op.relabelled answer := by
  cases op with
  | rename a b =>
    refine (rename_eq under point source a b).trans ?_
    cases (Operation.rename a b : Operation H Unit).refusal point with
    | some e => rfl
    | none => exact (bind_pure _).symm
  | remove p =>
    refine (remove_eq under point source p).trans ?_
    cases (Operation.remove p : Operation H Unit).refusal point with
    | some e => rfl
    | none => exact (bind_pure _).symm
  | readDir p => exact readDir_eq under source h
  | openFile p _ | stat p | lstat p | tempFile _ p _ =>
    show _ = (do
      let answer ← (if point.names <+: p.names then source else under).perform _
      return _)
    rw [← side_route]
    rfl
  | createDirAll p _ | symlink _ p | readlink p =>
    show _ = (do
      let answer ← (if point.names <+: p.names then source else under).perform _
      return _)
    rw [← side_route]
    exact (bind_pure _).symm

end Mount

end ConfinedFs
