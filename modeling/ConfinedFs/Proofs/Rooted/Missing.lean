import ConfinedFs.Proofs.Rooted.Failures
import ConfinedFs.Proofs.Rooted.Removal

/-!
Removing what is not there. Nothing is told of a path when its walk has come to a name that is
missing, and then a removal has nothing to do. It takes only the last name of the walk for such an
end. A name that is missing further up is reported, though the removal by the basic operations
passes over both.
-/

namespace ConfinedFs

open ConfinedFs.Os
open ConfinedFs.Action (Keeps)

variable {α : Type} {t : Tree} {p rel : Path}

/-- A removal by the basic operations has nothing to do at a path that leads to nothing. -/
theorem FileSystem.removeAll_of_missing {σ H : Type} {fs : FileSystem σ H} {s : σ}
    (h : fs.lstat p s = (.error .entityNotFound, s)) : fs.removeAll p s = (.ok (), s) := by
  obtain ⟨levels, hlevels⟩ : ∃ levels, (fs.depth s + 1) * (fs.depth s + 1) = levels + 1 :=
    ⟨_, (Nat.succ_pred_eq_of_pos (Nat.mul_pos (Nat.succ_pos _) (Nat.succ_pos _))).symm⟩
  show fs.removeAllWithin ((fs.depth s + 1) * (fs.depth s + 1)) p s = (.ok (), s)
  rw [hlevels, removeAllWithin, Action.bind_apply_of_ok (Action.outcome_of_run h)]
  rfl

namespace Root

variable {r : Root} {l : Endpoint}

/-- A directory is told of as long as it is there. -/
theorem statEndpoint_of_dir (hname : l.name = none) (t : Tree) :
    statEndpoint l t ≠ (.error .entityNotFound, t) := by
  have hnotMissing : FileError.ofErrno .badDescriptor ≠ .entityNotFound := by decide
  rw [statEndpoint_eq, Endpoint.place, hname]
  show ((t.stat l.dir).mapError FileError.ofErrno, t) ≠ _
  intro heq
  cases hstat : t.stat l.dir with
  | ok s =>
    rw [hstat] at heq
    cases heq
  | error e =>
    rw [hstat, Tree.stat_eq_error hstat] at heq
    exact hnotMissing (Except.error.inj (congrArg Prod.fst heq))

/-- Nothing is told of a path if and only if its walk has come to a name that is missing. -/
theorem lstat_missing_iff : r.lstat p t = (.error .entityNotFound, t) ↔
    EndsNowhere t (r.walk t p false) := by
  refine ⟨fun h => ?_, stat_of_endsNowhere⟩
  cases hl : r.walk t p false with
  | error e =>
    have hlost : r.lstat p t = (.error e, t) :=
      Action.bind_apply_of_error (by rw [Action.query_apply, hl])
    cases hlost.symm.trans h
    exact .inl rfl
  | ok l =>
    have hasked : r.lstat p t = statEndpoint l t :=
      Action.bind_apply_of_ok (by rw [Action.query_apply, hl])
    rw [hasked] at h
    cases hname : l.name with
    | none => exact absurd h (statEndpoint_of_dir hname t)
    | some n =>
      obtain ⟨found, hfound, _⟩ := answered_of_walk hl n hname
      cases found with
      | none => exact .inr ⟨l, n, rfl, hname, hfound⟩
      | some s =>
        rw [statEndpoint_apply hname, statAt_of_statIn hfound] at h
        cases h

/-- Then a removal fails if the walk does, and changes nothing. -/
theorem removeAll_of_endsNowhere (h : EndsNowhere t (r.walk t p false)) :
    r.removeAll p t = ((r.walk t p false).map fun _ => (), t) := by
  obtain hwalk | ⟨l, n, hwalk, hname, hfree⟩ := h
  · rw [hwalk]
    exact Action.bind_apply_of_error (by rw [Action.query_apply, hwalk])
  · rw [hwalk, removeAll_of_walk hwalk hname hfree]
    rfl

end Root

namespace Confined

variable {c : Confined}

theorem keeps_lstat (P : Tree → Prop) (c : Confined) (p : Path) : Keeps P (c.lstat p) :=
  .bind (.ofExcept _) fun rel => .bind c.keeps_root fun r =>
    .bind (Root.keeps_lstat r rel) fun _ => .pure _

/-- What is removed is what the root of the moment removes. -/
theorem removeAll_eq_below (hrel : c.relative p = .ok rel) (hbelow : rel.isHere = false)
    (t : Tree) : c.removeAll p t = (c.root >>= fun r => r.removeAll rel) t := by
  rw [removeAll, hrel]
  show (do
    if rel.isHere then throw .baseDirRemove
    (← c.root).removeAll rel : Root.Work Unit) t = _
  rw [hbelow]
  rfl

/-- Nothing is told of a path if the base is missing, or a name that its walk comes to. -/
theorem nowhere_of_lstat (hrel : c.relative p = .ok rel)
    (hmissing : (c.lstat p t).1 = .error .entityNotFound) :
    c.root t = (.error .entityNotFound, t) ∨
      ∃ r, c.root t = (.ok r, t) ∧ Root.EndsNowhere t (r.walk t rel false) := by
  have hasked : c.lstat p t =
      (c.root >>= fun r => do return (← r.lstat rel).metadata p : Root.Work Metadata) t := by
    rw [lstat, hrel]
    rfl
  rw [hasked] at hmissing
  cases hroot : c.root t with
  | mk opened u =>
    cases c.keeps_root.of_run (P := (· = t)) rfl hroot
    cases opened with
    | error e =>
      rw [Action.bind_apply_of_error hroot] at hmissing
      cases hmissing
      exact .inl rfl
    | ok r =>
      refine .inr ⟨r, rfl, Root.lstat_missing_iff.1 ?_⟩
      rw [Action.bind_apply_of_ok hroot] at hmissing
      cases hlstat : r.lstat rel t with
      | mk told u =>
        cases (Root.keeps_lstat r rel).of_run (P := (· = t)) rfl hlstat
        cases told with
        | error e =>
          rw [Action.bind_apply_of_error hlstat] at hmissing
          cases hmissing
          rfl
        | ok s =>
          rw [Action.bind_apply_of_ok hlstat] at hmissing
          cases hmissing

/-- A path that nothing is told of is removed without an error if all its names but the last are
there. If one of them is missing, or the base itself, that is reported. The removal by the basic
operations has no error for either, and nothing changes. -/
theorem removeAll_missing (hrel : c.relative p = .ok rel) (hbelow : rel.isHere = false)
    (hmissing : (c.lstat p t).1 = .error .entityNotFound) :
    (c.removeAll p t = (.ok (), t) ∨ c.removeAll p t = (.error .entityNotFound, t)) ∧
    (c.removeAll p t = (.ok (), t) ↔ ∃ r l n, c.root t = (.ok r, t) ∧
      r.walk t rel false = .ok l ∧ l.name = some n ∧ t.lookup l.dir n = .error .noEntry) ∧
    c.fileSystem.removeAll p t = (.ok (), t) := by
  have hlstat : c.fileSystem.lstat p t = (.error .entityNotFound, t) :=
    Prod.ext hmissing ((c.keeps_lstat (· = t) p).apply rfl)
  rw [removeAll_eq_below hrel hbelow, ← and_assoc]
  refine ⟨?_, FileSystem.removeAll_of_missing hlstat⟩
  rcases nowhere_of_lstat hrel hmissing with hroot | ⟨r, hroot, hnowhere⟩
  · rw [Action.bind_apply_of_error hroot]
    refine ⟨.inr rfl, iff_of_false nofun ?_⟩
    rintro ⟨r, _, _, hopen, _⟩
    cases hroot.symm.trans hopen
  · rw [Action.bind_apply_of_ok hroot, Root.removeAll_of_endsNowhere hnowhere]
    rcases hnowhere with hwalk | ⟨l, n, hwalk, hname, hfree⟩
    · rw [hwalk]
      refine ⟨.inr rfl, iff_of_false nofun ?_⟩
      rintro ⟨r', l, _, hopen, hl, _⟩
      cases hroot.symm.trans hopen
      cases hwalk.symm.trans hl
    · rw [hwalk]
      exact ⟨.inl rfl, iff_of_true rfl
        ⟨r, l, n, hroot, hwalk, hname, Root.lookup_of_statIn_none hfree⟩⟩

section Scene

/-- A tree with a link whose target is missing. -/
private def signpost : Tree :=
  (Call.symlink ⟨[109]⟩ (.entry Tree.top ⟨[115, 103], rfl⟩) Tree.fresh).2

/-- The path goes by the link, and its last name is not the one that is missing. -/
theorem removeAll_missing_behind_link :
    let c := shared ⟨Tree.top, Path.top⟩
    let p : Path := ⟨[115, 103, 47, 121]⟩
    c.relative p = .ok p ∧ p.isHere = false ∧
    (c.lstat p signpost).1 = .error .entityNotFound ∧
    c.removeAll p signpost = (.error .entityNotFound, signpost) ∧
    c.fileSystem.removeAll p signpost = (.ok (), signpost) := by
  let c := shared ⟨Tree.top, Path.top⟩
  let p : Path := ⟨[115, 103, 47, 121]⟩
  have hrel : c.relative p = .ok p := rfl
  have hbelow : p.isHere = false := by decide
  have hmissing : (c.lstat p signpost).1 = .error .entityNotFound := rfl
  obtain ⟨hremoved, honly, hbasic⟩ := removeAll_missing hrel hbelow hmissing
  refine ⟨hrel, hbelow, hmissing, hremoved.resolve_left fun hdone => ?_, hbasic⟩
  obtain ⟨r, l, n, hopen, hl, -⟩ := honly.1 hdone
  cases hopen
  cases hl

/-- Below an empty base `x/y` is reported by one removal and passed over by the other. -/
theorem removeAll_missing_reported :
    let c := shared ⟨Tree.top, Path.top⟩
    let p : Path := ⟨[120, 47, 121]⟩
    c.relative p = .ok p ∧ p.isHere = false ∧
    (c.lstat p Tree.fresh).1 = .error .entityNotFound ∧
    c.removeAll p Tree.fresh ≠ (.ok (), Tree.fresh) ∧
    (c.removeAll p Tree.fresh).1 = .error .entityNotFound ∧
    (c.fileSystem.removeAll p Tree.fresh).1 = .ok () := by
  refine ⟨rfl, by decide, rfl, fun heq => ?_, rfl, rfl⟩
  cases congrArg Prod.fst heq

end Scene

end Confined

end ConfinedFs
