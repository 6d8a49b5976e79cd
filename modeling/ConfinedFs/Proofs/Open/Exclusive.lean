import ConfinedFs.Memory.FileSystem
import ConfinedFs.Proofs.Rooted.Absence
import ConfinedFs.Proofs.Rooted.ClearDir
import ConfinedFs.Proofs.Rooted.Failures

/-!
Files that have to be new. The filesystem in memory and the host open one only if nothing
was at its path before, not even a link without a target. A root follows the links of the
path first, the last one included: all it is sure of is that the path led to nothing, and it
creates what a link in the last place points to.
-/

namespace ConfinedFs

open ConfinedFs.Os
open ConfinedFs.Action (Keeps Triple)

variable {p : Path} {o : OpenOptions}

namespace Memory

variable {m : Memory}

/-- A request that has to create the file goes on only where there is nothing. -/
theorem lstat_of_fileAt (hnew : o.createNew = true)
    (h : ∀ e, m.fileAt p o = .error e → e = .entityNotFound) :
    m.lstat p = .error .entityNotFound := by
  unfold fileAt at h
  rw [hnew] at h
  unfold lstat
  cases hk : m.resolve p false with
  | error e =>
    rw [hk] at h
    rw [h e rfl]
    rfl
  | ok k =>
    rw [hk] at h
    cases hexists : m.exists? k with
    | true =>
      simp only [hexists, bind, Except.bind, if_true] at h
      exact absurd (h .alreadyExists rfl) nofun
    | false =>
      obtain ⟨hindex, hbelow⟩ : m.index.find? k = none ∧ m.hasDescendants k = false := by
        simpa [exists?, Index.contains] using hexists
      simp only [describe, nodeAt, hindex, hbelow, bind, Except.bind, Option.bind]
      rfl

theorem triple_openFile_exclusive (hnew : o.createNew = true) (p : Path) :
    Triple (· = m) (openFile p o) (fun _ _ => m.lstat p = .error .entityNotFound)
      fun _ _ => True := by
  have hcreates : o.creates = true := by simp [OpenOptions.creates, hnew]
  have hfile : Triple (· = m) (fileFor p o) (fun _ _ => m.lstat p = .error .entityNotFound)
      fun _ _ => True := by
    unfold fileFor
    apply Triple.look_bind
    cases hfound : m.fileAt p o with
    | ok c =>
      have habsent := lstat_of_fileAt hnew (m := m) (p := p) fun e he => by
        rw [hfound] at he
        cases he
      exact Triple.always (fun _ _ => habsent) fun _ _ => trivial
    | error e =>
      cases e with
      | entityNotFound =>
        have habsent := lstat_of_fileAt hnew (m := m) (p := p) fun e he => by
          rw [hfound] at he
          exact (Except.error.inj he).symm
        exact Triple.always (fun _ _ => habsent) fun _ _ => trivial
      | _ => exact Triple.throw fun _ _ => trivial
  unfold openFile
  rw [hcreates, if_pos rfl]
  refine Triple.bind hfile fun cell => ?_
  rintro s habsent
  exact Triple.always (P := fun _ => True) (fun _ _ => habsent) (fun _ _ => trivial) s trivial

end Memory

namespace Host

variable {t : Tree} {P : Tree → Prop}

section Creating

variable (hmkdir : ∀ place mode, Keeps P (Call.mkdir place mode))

include hmkdir

/-- What creating a directory keeps is kept by creating several. -/
theorem keeps_ensureUpwards (mode : UInt32) (names : List Name) :
    Keeps P (ensureUpwards mode names) := by
  induction names with
  | nil => exact .pure _
  | cons n above ih =>
    have hdir : ∀ p, Keeps P (mkdir p mode) := fun p => .bind (.query _) fun _ => hmkdir _ _
    refine .bind (.outcome (hdir _)) fun made => ?_
    cases made with
    | ok => exact .pure _
    | error e =>
      refine .ite (.bind ih fun _ => .bind (.outcome (hdir _)) fun made => ?_) ?_
      · cases made with
        | ok => exact .pure _
        | error e => exact .bind (.look _) fun _ => .ite (.throw _) (.pure _)
      · exact .bind (.look _) fun _ => .ite (.throw _) (.pure _)

theorem keeps_ensureAbove (p : Path) : Keeps P (ensureAbove p) :=
  .mapError (keeps_ensureUpwards hmkdir _ _)

end Creating

theorem triple_openFile_exclusive (ht : t.Sound) (hnew : o.createNew = true) (h : Host)
    (p : Path) : Triple (· = t) (h.openFile p o)
      (fun _ _ => (h.lstat p t).1 = .error .entityNotFound) fun _ _ => True := by
  have hcreates : o.creates = true := by simp [OpenOptions.creates, hnew]
  have hnowhere : ∀ u, Call.Gained t u → u.EndsNowhere (u.resolve (h.place p) .keep) →
      (h.lstat p t).1 = .error .entityNotFound := by
    intro u hu hnowhere
    have hfind := Tree.find_of_endsNowhere (Tree.resolve_endsNowhere hu.1 ht hnowhere)
    have hask := ask_apply (fun t => do t.report (← t.find (h.place p) .keep)) t
    simp only [hfind] at hask
    rw [lstat, Action.bind_apply_of_error hask]
    rfl
  have hensure : Triple (· = t) (ensureAbove (h.place p)) (fun _ => Call.Gained t)
      fun _ _ => True := by
    have hkeeps := keeps_ensureAbove (Call.keeps_gained_mkdir t) (h.place p)
    exact (Triple.fix hkeeps ⟨.refl t, ht⟩).onError fun _ _ _ => trivial
  unfold openFile
  rw [hcreates, if_pos rfl]
  refine Triple.bind hensure fun _ => Triple.of_fixed fun u hu => ?_
  refine Triple.bind (Triple.mapError (Q := fun _ _ =>
    (h.lstat p t).1 = .error .entityNotFound) ?_) fun _ => Triple.pure fun _ hs => hs
  rw [show (openFlags o).lastLink = .keep by simp [openFlags, OpenFlags.lastLink, hnew]]
  refine Triple.query_bind (fun found hfound => ?_) fun _ _ => trivial
  refine (Call.triple_openAt_exclusive hcreates hnew found.1 found.2).weaken (fun _ hs => hs)
    ?_ fun _ _ hs => hs
  rintro _ _ ⟨dir, n, hplace, hlookup⟩
  refine hnowhere u hu (.inr ⟨dir, n, found.2, ?_, hlookup⟩)
  rw [hfound, ← hplace]

end Host

namespace Confined

variable {t : Tree}

/-- The directories above a path are made in a tree that keeps what it has; below a
directory that is not there, none are made. -/
theorem triple_ensureAbove (ht : t.Sound) (r : Root) (rel : Path) :
    Triple (· = t) (ensureAbove r rel)
      (fun _ u => Call.Gained t u ∧ ((t.node? r.dir).isSome ∨ u = t)) fun _ _ => True := by
  have hstart : Call.Gained t t := ⟨.refl t, ht⟩
  cases hr : t.node? r.dir with
  | some node =>
    have hkeeps := keeps_ensureAbove (Call.keeps_gained_mkdir t) r rel
    refine hkeeps.weaken ?_ (fun _ u hu => ⟨hu, .inl rfl⟩) fun _ _ _ => trivial
    rintro _ rfl
    exact hstart
  | none =>
    have hkeeps : Keeps (· = t) (ensureAbove r rel) :=
      .ite (.pure _) (Root.keeps_ensureEach (fun p => Root.keeps_mkdir_of_unknown hr p _) _)
    refine hkeeps.weaken (fun _ hs => hs) ?_ fun _ _ _ => trivial
    rintro _ _ rfl
    exact ⟨hstart, .inr rfl⟩

section Asking

variable {c : Confined} {rel : Path} {r : Root}

theorem stat_apply (hrel : c.relative p = .ok rel) (hroot : c.root t = (.ok r, t)) :
    c.stat p t = (r.stat rel >>= fun s => pure (s.metadata p) : Root.Work Metadata) t := by
  unfold stat
  rw [hrel, Action.bind_apply_of_ok (Action.ofExcept_apply (.ok rel) t),
    Action.bind_apply_of_ok hroot]

theorem lstat_apply (hrel : c.relative p = .ok rel) (hroot : c.root t = (.ok r, t)) :
    c.lstat p t = (r.lstat rel >>= fun s => pure (s.metadata p) : Root.Work Metadata) t := by
  unfold lstat
  rw [hrel, Action.bind_apply_of_ok (Action.ofExcept_apply (.ok rel) t),
    Action.bind_apply_of_ok hroot]

end Asking

theorem triple_openFile_exclusive (ht : t.Sound) (hnew : o.createNew = true) (c : Confined)
    (p : Path) : Triple (· = t) (c.openFile p o)
      (fun _ _ => (c.stat p t).1 = .error .entityNotFound ∧
        ((c.lstat p t).1 = .error .entityNotFound ∨
          ∃ m, (c.lstat p t).1 = .ok m ∧ m.fileType.symlink = true))
      fun _ _ => True := by
  have hcreates : o.creates = true := by simp [OpenOptions.creates, hnew]
  unfold openFile
  cases hrel : c.relative p with
  | error e => exact Triple.throw_bind fun _ _ => trivial
  | ok rel =>
    refine Triple.bind_of_run (a := rel) rfl ?_
    have hroot : Keeps (· = t) c.root := c.keeps_root
    refine Triple.bind (hroot.again.onError fun _ _ _ => trivial) fun r => ?_
    refine Triple.of_fixed fun _ hasked => ?_
    obtain ⟨hsame, hroot⟩ := hasked
    rw [hsame, hcreates, if_pos rfl]
    refine Triple.bind (triple_ensureAbove ht r rel) fun _ => ?_
    refine Triple.of_fixed fun u hensured => ?_
    obtain ⟨hgained, hknown⟩ := hensured
    refine Triple.bind (Root.triple_openFile_exclusive hnew r rel) fun _ => ?_
    refine Triple.pure fun _ hu => ?_
    have hnowhere : Root.EndsNowhere t (r.walk t rel true) := by
      rcases hknown with hr | rfl
      · exact Root.walk_endsNowhere hgained.1 ht hr hu
      · exact hu
    refine ⟨?_, ?_⟩
    · rw [stat_apply hrel hroot]
      exact congrArg Prod.fst (Action.bind_apply_of_error (Root.stat_of_endsNowhere hnowhere))
    · rw [lstat_apply hrel hroot]
      rcases r.walk_keptOr t rel with hsame | hlink
      · rw [← hsame] at hnowhere
        exact .inl
          (congrArg Prod.fst (Action.bind_apply_of_error (Root.stat_of_endsNowhere hnowhere)))
      · obtain ⟨s, hs, hsymlink⟩ := Root.lstat_of_endsAtLink hlink
        rw [Action.bind_apply_of_ok hs]
        exact .inr ⟨_, rfl, hsymlink⟩

end Confined

/-- A file that has to be new is opened only where nothing was found. In memory and on the
host nothing was at the path, not even a link without a target. Through a root the path led
to nothing, but there may have been a link in the last place. -/
theorem openFile_exclusive {t : Tree} (ht : t.Sound) (hnew : o.createNew = true) (p : Path) :
    (∀ m f m', Memory.fileSystem.openFile p o m = (.ok f, m') →
      (Memory.fileSystem.lstat p m).1 = .error .entityNotFound) ∧
    (∀ (h : Host) f t', h.fileSystem.openFile p o t = (.ok f, t') →
      (h.fileSystem.lstat p t).1 = .error .entityNotFound) ∧
    ∀ (c : Confined) f t', c.fileSystem.openFile p o t = (.ok f, t') →
      (c.fileSystem.stat p t).1 = .error .entityNotFound ∧
        ((c.fileSystem.lstat p t).1 = .error .entityNotFound ∨
          ∃ m, (c.fileSystem.lstat p t).1 = .ok m ∧ m.fileType.symlink = true) :=
  ⟨fun _ _ _ hrun => (Memory.triple_openFile_exclusive hnew p).of_ok rfl hrun,
    fun h _ _ hrun => (Host.triple_openFile_exclusive ht hnew h p).of_ok rfl hrun,
    fun c _ _ hrun => (Confined.triple_openFile_exclusive ht hnew c p).of_ok rfl hrun⟩

section DanglingLink

private def linkName : Name := ⟨[108], rfl⟩

private def linkPath : Path := ⟨[108]⟩

/-- A tree with a link whose target is missing. -/
private def dangling : Tree := (Call.symlink ⟨[100]⟩ (.entry Tree.top linkName) Tree.fresh).2

private theorem sound_dangling : dangling.Sound :=
  (Tree.Reachable.fresh.symlink ⟨[100]⟩ (.entry Tree.top linkName)).sound

/-- Below another directory the host creates a file; the root creates the link's target. -/
theorem openFile_exclusive_dangling_link :
    dangling.Sound ∧ OpenOptions.temporary.createNew = true ∧
      (Memory.fileSystem.lstat linkPath Memory.fresh).1 = .error .entityNotFound ∧
      ((⟨⟨[47, 101]⟩⟩ : Host).fileSystem.lstat linkPath dangling).1 = .error .entityNotFound ∧
      ((Confined.perCall Path.top).fileSystem.stat linkPath dangling).1 =
        .error .entityNotFound := by
  have hopened := openFile_exclusive (o := .temporary) sound_dangling rfl linkPath
  refine ⟨sound_dangling, rfl, ?_, ?_, ?_⟩
  · exact hopened.1 Memory.fresh _ _ rfl
  · exact hopened.2.1 ⟨⟨[47, 101]⟩⟩ _ _ rfl
  · exact (hopened.2.2 (Confined.perCall Path.top) _ _ rfl).1

/-- The root opens a file that has to be new although there was a link. -/
theorem Confined.openFile_behind_link :
    let c := Confined.perCall Path.top
    (∃ f t', c.fileSystem.openFile linkPath .temporary dangling = (.ok f, t')) ∧
      ∃ m, (c.fileSystem.lstat linkPath dangling).1 = .ok m ∧ m.fileType.symlink = true :=
  ⟨⟨_, _, rfl⟩, _, rfl, rfl⟩

end DanglingLink

end ConfinedFs
