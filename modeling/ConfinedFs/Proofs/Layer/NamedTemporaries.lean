import ConfinedFs.Proofs.Layer.JailTemporaries
import ConfinedFs.Proofs.Layer.MemoryMount

/-!
The names of temporary files. A layer takes the last name of what the filesystem below has made and
puts it after the directory that it was asked for. This leads back to the file only if that lies
directly in the directory, and with a mount only if the new name is not the mountpoint's own.
-/

namespace ConfinedFs

open ConfinedFs.Bytes ConfinedFs.Path
open ConfinedFs.BareFileSystem (temporaryAttempts temporaryName tempCandidate)

variable {σ H γ : Type}

/-- The name of an open file leads back to it. What is there is described as the file describes
itself, and what is opened there bears the mark of the file. -/
structure FileSystem.LeadsBack [Device σ H] (fs : FileSystem σ H) (mark : H → γ) (f : OpenFile H)
    (s : σ) : Prop where
  described : ∃ d, (fs.stat f.name s).1 = .ok d ∧ (OpenFile.metadata (f, s)).1 = .ok d
  opened : ∃ g, (fs.openRead f.name s).1 = .ok g ∧ mark g.handle = mark f.handle

/-- Under a path of a filesystem there is what is under another path of a tree in memory. -/
structure FileSystem.Shows (fs : FileSystem σ H) (wrap : Memory.Handle → H) (s : σ) (p : Path)
    (m : Memory) (q : Path) : Prop where
  stat : (fs.stat p s).1 = (m.stat q).map (·.named p)
  openRead : (fs.openRead p s).1 = (Memory.bareFileSystem.openRead q m).1.map fun g =>
    (g.withHandle (wrap g.handle)).withName p

theorem FileSystem.Shows.exists_handle {fs : FileSystem σ H} {wrap : Memory.Handle → H} {s : σ}
    {p q : Path} {m : Memory} {g : OpenFile H} (h : fs.Shows wrap s p m q)
    (hg : (fs.openRead p s).1 = .ok g) : ∃ h, g.handle = wrap h := by
  rw [h.openRead] at hg
  cases hopen : (Memory.bareFileSystem.openRead q m).1 with
  | error e =>
    rw [hopen] at hg
    cases hg
  | ok g' =>
    rw [hopen] at hg
    cases hg
    exact ⟨g'.handle, rfl⟩

namespace Memory

variable {m m' : Memory} {k : Key} {names : List Name} {c : CellId} {kind : NodeKind}
  {content : Content}

/-- A new node that is no link makes no links. -/
theorem Planted.plain (h : Planted m m' k kind content) (hkind : kind ≠ .symlink)
    (hplain : m.Plain) : m'.Plain := by
  intro j c hnode
  by_cases hmade : j <+: k ∧ m.nodeAt j = none
  · obtain ⟨hstarts, hfree⟩ := hmade
    by_cases heq : j = k
    · subst heq
      obtain ⟨c', hhere, -⟩ := h.here.nodeAt
      cases hnode.symm.trans hhere
      exact hkind rfl
    · obtain ⟨c', hhere, -⟩ := (h.above j hstarts heq hfree).nodeAt
      cases hnode.symm.trans hhere
  · have hsame := h.same j fun hstarts hfree => hmade ⟨hstarts, hfree⟩
    exact hplain j c (hsame.2.symm.trans hnode)

/-- Without links, the paths that lead to a file are those with its names. -/
theorem fileOf_ofNames_iff (h : m.WellFormed) (hplain : m.Plain)
    (hnode : m.nodeAt k = some ⟨.file, c⟩) : m.fileOf (ofNames names) = some c ↔ names = k := by
  rw [fileOf_eq_some_iff]
  constructor
  · rintro ⟨j, hj, hfile⟩
    obtain rfl := eq_names_of_resolve hplain hj
    exact h.key_unique hfile hnode rfl
  · rintro rfl
    have hpass := (h.parented_of_nodeAt hnode).passable
    exact ⟨_, resolve_ofNames hpass fun _ => hplain _, hnode⟩

end Memory

section Shown

variable [Device σ H] {fs : FileSystem σ H} {wrap : Memory.Handle → H} {mark : H → γ} {s : σ}
  {m : Memory} {q : Path} {f : OpenFile H} {c : CellId}

/-- A name leads back to a file in memory if that is what is there in memory. -/
theorem FileSystem.Shows.leadsBack_iff (h : fs.Shows wrap s f.name m q)
    (hmark : ∀ g, mark (wrap g) = mark f.handle ↔ g.cell = c)
    (hmetadata : (OpenFile.metadata (f, s)).1 =
      .ok ((m.content c).metadata .file f.name.baseName.bytes)) :
    fs.LeadsBack mark f s ↔ m.fileOf q = some c := by
  have hopen := h.openRead
  rw [Memory.openRead_apply] at hopen
  constructor
  · rintro ⟨-, g, hg, hsame⟩
    rw [Memory.fileOf]
    rw [hopen] at hg
    cases hstored : (m.resolve q true).bind m.fileStored with
    | error e =>
      rw [hstored] at hg
      cases hg
    | ok c' =>
      rw [hstored] at hg
      cases hg
      exact congrArg some ((hmark _).1 hsame)
  · intro hfile
    refine ⟨⟨_, ?_, hmetadata⟩, ?_⟩
    · rw [h.stat, Memory.stat_of_fileOf hfile]
      rfl
    · obtain ⟨k, hk, hnode⟩ := Memory.fileOf_eq_some_iff.1 hfile
      rw [hk, show (Except.ok k).bind m.fileStored = _ from Memory.fileStored_eq_ok_iff.2 hnode]
        at hopen
      exact ⟨_, hopen, (hmark _).2 rfl⟩

end Shown

section Candidates

variable {names : List Name} {stem : Bytes}

/-- What is tried below a directory ends in a name, which is its last one. -/
theorem exists_name_of_tempCandidate (draws : Draws) (names : List Name) (stem : Bytes) (i : Nat) :
    let q := tempCandidate draws (ofNames names) stem i
    ∃ n : Name, q.baseName = ⟨n.bytes⟩ ∧ q.names = Key.parent q.names ++ [n] := by
  intro q
  have hq : q = ofNames q.names := Jail.tempCandidate_eq (isAbsolute_ofNames names) draws stem i
  obtain ⟨n, hn⟩ := hasBaseName_tempCandidate draws (ofNames names) stem i
  refine ⟨n, hn, ?_⟩
  change q.baseName = ⟨n.bytes⟩ at hn
  rcases List.eq_nil_or_concat q.names with hnil | ⟨before, last, hlast⟩
  · rw [hq, hnil] at hn
    have htop : n.bytes = [slash] := (congrArg Path.bytes hn).symm
    have hvalid := n.valid
    rw [htop] at hvalid
    cases hvalid
  · rw [List.concat_eq_append] at hlast
    rw [hq, hlast, baseName_ofNames_concat] at hn
    obtain rfl : last = n := Name.ext (congrArg Path.bytes hn)
    rw [hlast, Key.parent, List.dropLast_concat]

theorem parent_tempCandidate (draws : Draws) (h : slash ∉ stem) (names : List Name) (i : Nat) :
    Key.parent (tempCandidate draws (ofNames names) stem i).names = names := by
  obtain ⟨n, hn⟩ := Memory.tempCandidate_ofNames draws h names i
  rw [hn, names_ofNames, Key.parent, List.dropLast_concat]

end Candidates

/-- A temporary file in a tree without links lies where its path says. -/
theorem Memory.tempFile_plain {m m' : Memory} {draws : Draws} {names : List Name} {stem : Bytes}
    {g : OpenFile Handle} (h : m.WellFormed) (hplain : m.Plain)
    (hrun : fileSystem.tempFile draws (ofNames names) stem m = (.ok g, m')) :
    m'.WellFormed ∧ ∃ i < temporaryAttempts,
      let q := tempCandidate draws (ofNames names) stem i
      MadeFile m q g m' q.names := by
  have h' : (fileSystem.tempFile draws (ofNames names) stem m).2.WellFormed :=
    wellFormed_tempFile h draws (ofNames names) stem
  rw [hrun] at h'
  obtain ⟨i, hi, -, k, hmade⟩ := tempFile_makes h hrun
  have hk := hmade.place
  rw [Jail.tempCandidate_eq (isAbsolute_ofNames names)] at hk
  obtain rfl := eq_names_of_resolve hplain hk
  exact ⟨h', i, hi, hmade⟩

section Named

variable [Device σ H] {fs : FileSystem σ H} {wrap : Memory.Handle → H} {mark : H → γ} {s : σ}
  {m m' : Memory} {q name : Path} {f : OpenFile H} {g : OpenFile Memory.Handle}
  {names : List Name} {n : Name}

/-- The name of a temporary file that is put after a directory leads back if the file lies in the
directory. -/
theorem FileSystem.Shows.leadsBack_iff_parent
    (h : fs.Shows wrap s f.name m' (ofNames (names ++ [n])))
    (hmade : m.MadeFile q g m' q.names) (hlast : q.names = Key.parent q.names ++ [n])
    (h' : m'.WellFormed) (hplain : m.Plain) (hhandle : f.handle = wrap g.handle)
    (hmark : ∀ h h', mark (wrap h) = mark (wrap h') ↔ h.cell = h'.cell)
    (hmetadata : (OpenFile.metadata (f, s)).1 =
      (Memory.Handle.metadata f.name (g.handle, m')).1) :
    fs.LeadsBack mark f s ↔ Key.parent q.names = names := by
  have hplain' : m'.Plain := hmade.planted.plain nofun hplain
  have hsame : names ++ [n] = q.names ↔ Key.parent q.names = names := by
    constructor
    · intro heq
      rw [← heq, Key.parent, List.dropLast_concat]
    · intro heq
      rw [hlast, heq]
  rw [h.leadsBack_iff (c := g.handle.cell), Memory.fileOf_ofNames_iff h' hplain' hmade.file, hsame]
  · intro g'
    rw [hhandle, hmark]
  · rw [hmetadata, hmade.handed]
    rfl

end Named

namespace Jail

variable {m m' : Memory} {base p dir : Path} {draws : Draws} {stem : Bytes}

theorem shows_inside (hp : p.climbsOut = false) (base : Path) (m : Memory) :
    (confine Memory.fileSystem base).fileSystem.Shows id m p m (inside base p) := by
  constructor
  · have hstat : (confine Memory.fileSystem base).fileSystem.stat p = (do
        return (← Memory.fileSystem.stat (inside base p)).named p) := place_bind hp
    rw [hstat, Action.bind_pure_apply]
    rfl
  · have hopen : (confine Memory.fileSystem base).fileSystem.openFile p .reading = (do
        return (← Memory.fileSystem.openFile (inside base p) .reading).withName p) := place_bind hp
    have hread : (confine Memory.fileSystem base).fileSystem.openRead p =
        (confine Memory.fileSystem base).fileSystem.openFile p .reading := rfl
    rw [hread, hopen, Action.bind_pure_apply]
    rfl

/-- The name that a jail gives a temporary file leads back to it if the file lies in the directory
that was asked for, and not below or beside it. -/
theorem tempFile_leadsBack_iff (h : m.WellFormed) (hplain : m.Plain)
    (hbase : base.isAbsolute = true) {f : OpenFile Memory.Handle}
    (hrun : (confine Memory.fileSystem base).fileSystem.tempFile draws dir stem m = (.ok f, m')) :
    ∃ i < temporaryAttempts, let q := tempCandidate draws (inside base dir) stem i
      f.name = dir.join q.baseName ∧ Memory.Planted m m' q.names .file ⟨[], 0o600⟩ ∧
      ((confine Memory.fileSystem base).fileSystem.LeadsBack Memory.Handle.cell f m' ↔
        Key.parent q.names = base.names ++ dir.names) ∧
      (slash ∉ stem → Key.parent q.names = base.names ++ dir.names) := by
  cases hdir : dir.climbsOut with
  | true =>
    have hrefused : (confine Memory.fileSystem base).fileSystem.tempFile draws dir stem =
        throw .crossedBoundary := place_bind_of_climbsOut hdir
    rw [hrefused] at hrun
    cases hrun
  | false =>
    rw [tempFile_eq hdir] at hrun
    obtain ⟨g, m₁, hbare, hpure⟩ := Action.exists_of_bind hrun
    cases hpure
    rw [inside_eq hbase hdir] at hbare ⊢
    obtain ⟨h', i, hi, hmade⟩ := Memory.tempFile_plain h hplain hbare
    obtain ⟨n, hn, hlast⟩ := exists_name_of_tempCandidate draws (base.names ++ dir.names) stem i
    have hname : dir.join g.name.baseName = dir.join ⟨n.bytes⟩ := by rw [hmade.name, hn]
    refine ⟨i, hi, hmade.name ▸ rfl, hmade.planted, ?_,
      fun hstem => parent_tempCandidate draws hstem _ i⟩
    have hshows := shows_inside (climbsOut_join_name hdir n) base m'
    rw [inside_eq hbase (climbsOut_join_name hdir n), names_join_name, ← List.append_assoc,
      ← hname] at hshows
    exact hshows.leadsBack_iff_parent hmade hlast h' hplain rfl (fun _ _ => Iff.rfl) rfl

end Jail

namespace Mount

variable {point p dir : Path} {draws : Draws} {stem : Bytes} {s s' : Memory × Memory} {n : Name}

/-- The handles of both sides by the cells of their files. -/
def cellOn : Memory.Handle ⊕ Memory.Handle → CellId ⊕ CellId :=
  Sum.map Memory.Handle.cell Memory.Handle.cell

theorem cellOn_halfHandle (mounted : Bool) (h h' : Memory.Handle) :
    cellOn (halfHandle mounted h) = cellOn (halfHandle mounted h') ↔ h.cell = h'.cell := by
  cases mounted
  · exact ⟨Sum.inl.inj, congrArg Sum.inl⟩
  · exact ⟨Sum.inr.inj, congrArg Sum.inr⟩

theorem eq_of_cellOn {mounted mounted' : Bool} {h h' : Memory.Handle}
    (heq : cellOn (halfHandle mounted h) = cellOn (halfHandle mounted' h')) :
    mounted = mounted' := by
  cases mounted <;> cases mounted' <;> first | rfl | cases heq

theorem shows_half (point p : Path) (s : Memory × Memory) :
    (overMemories point).fileSystem.Shows (halfHandle (isInside point p)) s p
      (half (isInside point p) s) (ofNames (namesThere point p)) := by
  constructor
  · rw [stat_overMemories]
  · have hread : (overMemories point).fileSystem.openRead p s =
        (overMemories point).fileSystem.openFile p .reading s := rfl
    rw [hread, openFile_overMemories]
    rfl

theorem metadata_half (mounted : Bool) (name : Path) (f : OpenFile Memory.Handle)
    (s : Memory × Memory) :
    (OpenFile.metadata (handedOut mounted name f, s)).1 =
      (Memory.Handle.metadata name (f.handle, half mounted s)).1 := by
  cases mounted <;> rfl

theorem tempFile_leadsBack_iff (h : ∀ mounted, (half mounted s).WellFormed)
    (hplain : ∀ mounted, (half mounted s).Plain) {f : OpenFile (Memory.Handle ⊕ Memory.Handle)}
    (hrun : (overMemories point).fileSystem.tempFile draws dir stem s = (.ok f, s')) :
    ∃ i < temporaryAttempts,
      let q := tempCandidate draws (ofNames (namesThere point dir)) stem i
      let mounted := isInside point dir
      f.name = dir.join q.baseName ∧ half (!mounted) s' = half (!mounted) s ∧
      (half mounted s).Planted (half mounted s') q.names .file ⟨[], 0o600⟩ ∧
      ((overMemories point).fileSystem.LeadsBack cellOn f s' ↔
        isInside point f.name = mounted ∧ Key.parent q.names = namesThere point dir) := by
  rw [tempFile_overMemories] at hrun
  cases hbare : Memory.fileSystem.tempFile draws (ofNames (namesThere point dir)) stem
    (half (isInside point dir) s) with
  | mk r m' =>
    rw [hbare] at hrun
    cases r with
    | error e => cases hrun
    | ok g =>
      cases hrun
      obtain ⟨h', i, hi, hmade⟩ := Memory.tempFile_plain (h _) (hplain _) hbare
      obtain ⟨n, hn, hlast⟩ := exists_name_of_tempCandidate draws (namesThere point dir) stem i
      have hname : dir.join g.name.baseName = dir.join ⟨n.bytes⟩ := by rw [hmade.name, hn]
      refine ⟨i, hi, hmade.name ▸ rfl, half_not_set .., ?_, ?_⟩
      · rw [half_set]
        exact hmade.planted
      · have hshows := shows_half point (dir.join g.name.baseName)
          ((halfPart (isInside point dir)).set m' s)
        by_cases hside : isInside point (dir.join g.name.baseName) = isInside point dir
        · have hthere : namesThere point (dir.join g.name.baseName) =
              namesThere point dir ++ [n] := by
            rw [hname] at hside ⊢
            exact namesThere_concat (names_join_name dir n) hside
          rw [hthere, hside, half_set] at hshows
          have hback := hshows.leadsBack_iff_parent (f := handedOut _ _ g) hmade hlast h' (hplain _)
            rfl (cellOn_halfHandle _) (by rw [metadata_half, half_set]; rfl)
          exact hback.trans (and_iff_right hside).symm
        · refine iff_of_false ?_ fun hback => hside hback.1
          rintro ⟨-, g', hg', hsame⟩
          obtain ⟨h'', hhandle⟩ := hshows.exists_handle hg'
          rw [hhandle] at hsame
          exact hside (eq_of_cellOn hsame)

end Mount

/-- A temporary file that has been made through a jail or a mount, over trees in memory without
links, is an empty one at one of the places that are tried, and its name is put together from the
directory and the last name of that place. The name leads back to the file if and only if the file
lies directly in the directory and, in a mount, the name and the directory are on the same side. The
file lies directly in the directory whenever the bytes that its name starts with hold no
separator. -/
theorem tempFile_leadsBack (draws : Draws) (dir : Path) (stem : Bytes) :
    (∀ (m : Memory) (base : Path), m.WellFormed → m.Plain → base.isAbsolute = true →
      let fs := (Jail.confine Memory.fileSystem base).fileSystem
      ∀ f m', fs.tempFile draws dir stem m = (.ok f, m') → ∃ i < temporaryAttempts,
        let q := tempCandidate draws (Jail.inside base dir) stem i
        f.name = dir.join q.baseName ∧ m.Planted m' q.names .file ⟨[], 0o600⟩ ∧
        (fs.LeadsBack Memory.Handle.cell f m' ↔ Key.parent q.names = base.names ++ dir.names) ∧
        (slash ∉ stem → fs.LeadsBack Memory.Handle.cell f m')) ∧
    ∀ (s : Memory × Memory) (point : Path), (∀ mounted, (Mount.half mounted s).WellFormed) →
      (∀ mounted, (Mount.half mounted s).Plain) →
      let fs := (Mount.overMemories point).fileSystem
      let mounted := Mount.isInside point dir
      ∀ f s', fs.tempFile draws dir stem s = (.ok f, s') → ∃ i < temporaryAttempts,
        let q := tempCandidate draws (ofNames (Mount.namesThere point dir)) stem i
        f.name = dir.join q.baseName ∧ Mount.half (!mounted) s' = Mount.half (!mounted) s ∧
        (Mount.half mounted s).Planted (Mount.half mounted s') q.names .file ⟨[], 0o600⟩ ∧
        (fs.LeadsBack Mount.cellOn f s' ↔ Mount.isInside point f.name = mounted ∧
          Key.parent q.names = Mount.namesThere point dir) ∧
        (slash ∉ stem → Mount.isInside point f.name = mounted →
          fs.LeadsBack Mount.cellOn f s') := by
  constructor
  · intro m base h hplain hbase fs f m' hrun
    obtain ⟨i, hi, hname, hplanted, hback, hdirect⟩ :=
      Jail.tempFile_leadsBack_iff h hplain hbase hrun
    exact ⟨i, hi, hname, hplanted, hback, fun hstem => hback.2 (hdirect hstem)⟩
  · intro s point h hplain fs mounted f s' hrun
    obtain ⟨i, hi, hname, hother, hplanted, hback⟩ := Mount.tempFile_leadsBack_iff h hplain hrun
    exact ⟨i, hi, hname, hother, hplanted, hback,
      fun hstem hside => hback.2 ⟨hside, parent_tempCandidate draws hstem _ i⟩⟩

/-- In a jail over an empty tree, and below the mountpoint of two of them. -/
theorem tempFile_leadsBack_fresh :
    (let fs := (Jail.confine Memory.fileSystem ⟨[47, 106]⟩).fileSystem
      ∃ f m', fs.tempFile (fun _ => 0) ⟨[112]⟩ [116] .fresh = (.ok f, m') ∧
        fs.LeadsBack Memory.Handle.cell f m') ∧
    let fs := (Mount.overMemories ⟨[47, 109]⟩).fileSystem
    ∃ f s', fs.tempFile (fun _ => 0) ⟨[109]⟩ [116] (.fresh, .fresh) = (.ok f, s') ∧
      fs.LeadsBack Mount.cellOn f s' := by
  have hjail := (tempFile_leadsBack (fun _ => 0) ⟨[112]⟩ [116]).1 .fresh ⟨[47, 106]⟩
    Memory.wellFormed_fresh Memory.plain_fresh rfl
  have hmount := (tempFile_leadsBack (fun _ => 0) ⟨[109]⟩ [116]).2 (.fresh, .fresh) ⟨[47, 109]⟩
    (fun mounted => by cases mounted <;> exact Memory.wellFormed_fresh)
    (fun mounted => by cases mounted <;> exact Memory.plain_fresh)
  constructor
  · obtain ⟨f, m', hrun⟩ : ∃ f m', (Jail.confine Memory.fileSystem ⟨[47, 106]⟩).fileSystem.tempFile
        (fun _ => 0) ⟨[112]⟩ [116] .fresh = (.ok f, m') := ⟨_, _, Jail.tempFile_of_first rfl rfl⟩
    obtain ⟨_, -, -, -, -, hback⟩ := hjail f m' hrun
    exact ⟨f, m', hrun, hback (by decide)⟩
  · obtain ⟨f, s', hrun, hside⟩ : ∃ f s', (Mount.overMemories ⟨[47, 109]⟩).fileSystem.tempFile
        (fun _ => 0) ⟨[109]⟩ [116] (.fresh, .fresh) = (.ok f, s') ∧
        Mount.isInside ⟨[47, 109]⟩ f.name = Mount.isInside ⟨[47, 109]⟩ ⟨[109]⟩ := by
      rw [Mount.tempFile_overMemories, Memory.tempFile_of_first rfl]
      exact ⟨_, _, rfl, by decide⟩
    obtain ⟨_, -, -, -, -, -, hback⟩ := hmount f s' hrun
    exact ⟨f, s', hrun, hback (by decide) hside⟩

/-- With `a/x` before the digits the file is made in the directory `a`, which its name does not
tell. -/
theorem tempFile_leads_elsewhere :
    let fs := (Jail.confine Memory.fileSystem ⟨[47, 106]⟩).fileSystem
    Memory.Plain .fresh ∧ ∃ f m',
      fs.tempFile (fun _ => 0) ⟨[46]⟩ [97, 47, 120] .fresh = (.ok f, m') ∧
      (OpenFile.metadata (f, m')).1 = .ok ⟨temporaryName [120] 0, .ofFile, 0o600, 0, 0⟩ ∧
      (fs.stat f.name m').1 = .error .entityNotFound :=
  ⟨Memory.plain_fresh, _, _, Jail.tempFile_of_first rfl rfl, rfl, rfl⟩

end ConfinedFs
