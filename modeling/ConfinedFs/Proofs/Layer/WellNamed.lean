import ConfinedFs.Proofs.Layer.Routing
import ConfinedFs.Proofs.Memory.Atomic
import ConfinedFs.Proofs.Path.LastName
import ConfinedFs.Proofs.Path.Steps
import ConfinedFs.Proofs.Triple
import ConfinedFs.World

/-!
The names that filesystems give away. A temporary file has a path that ends in a name,
and so has every entry of a listing; a layer can take the name off and put it below a
path of its own. All volumes keep to it.
-/

namespace ConfinedFs

open ConfinedFs.Path ConfinedFs.Bytes

variable {σ τ H K ε ε' α β : Type}

open ConfinedFs.Action (Yields)

/-- The path ends in a name that an entry of a directory can have. -/
def Path.HasFileName (p : Path) : Prop := ∃ n : Name, p.fileName? = some n.bytes

/-- The last element of the path is a name that an entry of a directory can have. -/
def Path.HasBaseName (p : Path) : Prop := ∃ n : Name, p.baseName = ⟨n.bytes⟩

theorem Path.hasFileName_push (p : Path) (n : Name) : (p.push ⟨n.bytes⟩).HasFileName :=
  ⟨n, fileName?_push p n⟩

/-- Names are what a filesystem gives away: in the paths of temporary files and in the
entries of directories. -/
structure FileSystem.WellNamed (fs : FileSystem σ H) : Prop where
  tempFile : ∀ draws dir stem, Yields (fs.tempFile draws dir stem) fun f => f.name.HasBaseName
  readDir : ∀ p, Yields (fs.readDir p) fun l => ∀ e ∈ l.entries, e.path.HasFileName

/-- A file goes by the path it has been opened under. -/
def BareFileSystem.OpensNamed (fs : BareFileSystem σ H) : Prop :=
  ∀ p o, Yields (fs.openFile p o) fun f => f.name = p

section Temporary

/-- The digits of a temporary name are neither separators nor dots. -/
theorem not_mem_digits {b : UInt8} (n k : Nat) (hb : b.toNat < 48) :
    b ∉ (List.replicate k '0' ++ Nat.toDigits 10 n).map fun c => c.toNat.toUInt8 := by
  intro hmem
  obtain ⟨c, hc, rfl⟩ := List.mem_map.1 hmem
  have hdigit : c.isDigit = true := by
    rcases List.mem_append.1 hc with hzero | hdigit
    · rw [List.eq_of_mem_replicate hzero]
      rfl
    · exact Nat.isDigit_of_mem_toDigits (by decide) (by decide) hdigit
  have hbounds : '0'.val ≤ c.val ∧ c.val ≤ '9'.val := by
    simpa [Char.isDigit] using hdigit
  have hlower : '0'.val.toNat ≤ c.val.toNat := UInt32.le_iff_toNat_le.1 hbounds.1
  have hupper : c.val.toNat ≤ '9'.val.toNat := UInt32.le_iff_toNat_le.1 hbounds.2
  have hzero : '0'.val.toNat = 48 := rfl
  have hnine : '9'.val.toNat = 57 := rfl
  have hnat : c.toNat.toUInt8.toNat = c.val.toNat % 256 := UInt8.toNat_ofNat'
  omega

/-- After a text without separators digits make a name. -/
theorem isName_append {last digits : Bytes} (hlast : slash ∉ last) (hslash : slash ∉ digits)
    (hdot : dot ∉ digits) (hne : digits ≠ []) : isName (last ++ digits) = true := by
  obtain ⟨before, b, rfl⟩ : ∃ before b, digits = before ++ [b] :=
    ⟨_, _, (List.dropLast_concat_getLast hne).symm⟩
  have hends : ∀ text : Bytes, last ++ (before ++ [b]) = text → text.getLast? = some b := by
    rintro text rfl
    rw [← List.append_assoc, List.getLast?_concat]
  have hother : ∀ text : Bytes, text.getLast? = some dot → last ++ (before ++ [b]) ≠ text := by
    intro text hdotLast heq
    rw [hends text heq, Option.some.injEq] at hdotLast
    rw [hdotLast] at hdot
    exact hdot (List.mem_append_right _ (List.mem_singleton_self dot))
  have hslash' : slash ∉ last ++ (before ++ [b]) := by
    rw [List.mem_append]
    exact fun h => h.elim hlast hslash
  have hnil : (last ++ (before ++ [b])).isEmpty = false := by simp
  have hfree : (last ++ (before ++ [b])).contains slash = false := by
    rw [Bool.eq_false_iff]
    exact fun h => hslash' (List.contains_iff_mem.1 h)
  rw [isName, hnil, hfree]
  simp [hother [dot] rfl, hother [dot, dot] rfl]

/-- The digits at the end of a temporary name. -/
theorem exists_digits (stem : Bytes) (word : UInt32) :
    ∃ digits, BareFileSystem.temporaryName stem word = stem ++ digits ∧ slash ∉ digits ∧
      dot ∉ digits ∧ digits ≠ [] := by
  have hdigits := fun (b : UInt8) (hb : b.toNat < 48) =>
    not_mem_digits (word.toNat % 1000000000)
      (9 - (Nat.toDigits 10 (word.toNat % 1000000000)).length) hb
  exact ⟨_, rfl, hdigits slash (by decide), hdigits dot (by decide), by simp [Nat.toDigits_ne_nil]⟩

/-- A temporary name is a name if it starts with the bytes of one. -/
theorem isName_temporaryName {stem : Bytes} (h : slash ∉ stem) (word : UInt32) :
    isName (BareFileSystem.temporaryName stem word) = true := by
  obtain ⟨digits, hname, hslash, hdot, hne⟩ := exists_digits stem word
  rw [hname]
  exact isName_append h hslash hdot hne

/-- However a temporary name starts, a name comes last, and the digits are part of it. -/
theorem exists_inner_append_name (stem : Bytes) : ∃ cs : List Component,
    (.parent ∈ cs → .parent ∈ (⟨stem⟩ : Path).components) ∧
    ∀ word, ∃ n : Name, (⟨BareFileSystem.temporaryName stem word⟩ : Path).inner = cs ++ [.name n] := by
  obtain ⟨l, last, hlast, hfields⟩ := Path.exists_last_field stem
  refine ⟨l.filterMap Component.ofField?, fun hmem => ?_, fun word => ?_⟩
  · have hstem := hfields [] List.not_mem_nil
    rw [List.append_nil] at hstem
    rw [Path.parent_mem_components_iff, Path.inner, hstem, List.filterMap_append]
    exact List.mem_append_left _ hmem
  · obtain ⟨digits, hname, hslash, hdot, hne⟩ := exists_digits stem word
    refine ⟨⟨last ++ digits, isName_append hlast hslash hdot hne⟩, inner_of_fields ?_⟩
    rw [hname]
    exact hfields digits hslash

theorem hasBaseName_tempCandidate (draws : Draws) (dir : Path) (stem : Bytes) (i : Nat) :
    (BareFileSystem.tempCandidate draws dir stem i).HasBaseName := by
  obtain ⟨_, -, hinner⟩ := exists_inner_append_name stem
  obtain ⟨n, hn⟩ := hinner (draws i)
  exact ⟨n, baseName_join dir hn⟩

namespace BareFileSystem

variable {fs : BareFileSystem σ H}

theorem OpensNamed.openUnused (h : fs.OpensNamed) {Q : Path → Prop} {candidate : Nat → Path}
    (hQ : ∀ i, Q (candidate i)) (l : List Nat) :
    Yields (fs.openUnused candidate l) fun f => Q f.name := by
  induction l with
  | nil => exact Yields.throw _
  | cons i l ih =>
    refine Yields.bind (Yields.outcome (h (candidate i) .temporary)) fun r hr => ?_
    cases r with
    | ok f =>
      apply Yields.pure
      rw [hr f rfl]
      exact hQ i
    | error e =>
      cases e with
      | alreadyExists => exact ih
      | _ => exact Yields.throw _

theorem OpensNamed.unusedFile (h : fs.OpensNamed) (draws : Draws) (dir : Path) (stem : Bytes) :
    Yields (fs.unusedFile draws dir stem) fun f => f.name.HasBaseName :=
  h.openUnused (hasBaseName_tempCandidate draws dir stem) _

end BareFileSystem

end Temporary

section Engines

theorem Memory.opensNamed : Memory.bareFileSystem.OpensNamed :=
  fun _ _ _ _ _ hrun => name_of_openFile hrun

theorem Host.opensNamed (h : Host) : h.bareFileSystem.OpensNamed := by
  intro p o
  show Yields (h.openFile p o) _
  unfold openFile
  refine Yields.ite (fun _ => Yields.after fun _ => ?_) fun _ => ?_
  · exact Yields.after fun d => Yields.pure rfl
  · exact Yields.after fun d => Yields.pure rfl

theorem Confined.opensNamed (c : Confined) : c.bareFileSystem.OpensNamed := by
  intro p o
  show Yields (c.openFile p o) _
  unfold openFile
  refine Yields.after fun rel => Yields.after fun r => ?_
  refine Yields.ite (fun _ => Yields.after fun _ => ?_) fun _ => ?_
  · exact Yields.after fun d => Yields.pure rfl
  · exact Yields.after fun d => Yields.pure rfl

theorem Memory.wellNamed : Memory.fileSystem.WellNamed := by
  constructor
  case tempFile =>
    intro draws dir stem
    simp only [fileSystem]
    exact opensNamed.unusedFile draws dir stem
  case readDir =>
    intro p
    have hentries : ∀ m l, Memory.readDir m p = .ok l → ∀ e ∈ l.entries, e.path.HasFileName := by
      intro m l hl e he
      obtain ⟨k, hk⟩ : ∃ k : Key, l.entries = (m.children k).map fun n =>
          ({ path := p.fromTop.push ⟨n.bytes⟩, metadata := m.describe (k ++ [n]) n.bytes } :
            DirEntry) := by
        unfold Memory.readDir at hl
        cases hresolve : m.resolve p true with
        | error e =>
          rw [hresolve] at hl
          cases hl
        | ok k =>
          rw [hresolve] at hl
          refine ⟨k, ?_⟩
          simp only [bind, Except.bind] at hl
          split at hl
          · split at hl
            · cases hl
            · cases hl
              rfl
          · split at hl
            · cases hl
            · cases hl
              rfl
      rw [hk] at he
      obtain ⟨n, _, rfl⟩ := List.mem_map.1 he
      exact hasFileName_push _ n
    exact Yields.query hentries

theorem Host.wellNamed (h : Host) : h.fileSystem.WellNamed := by
  constructor
  case tempFile =>
    intro draws dir stem
    exact Yields.after fun _ => h.opensNamed.unusedFile draws dir stem
  case readDir =>
    intro p
    refine Yields.after fun found => Yields.pure ?_
    intro e he
    obtain ⟨entry, _, rfl⟩ := List.mem_map.1 he
    exact hasFileName_push _ entry.1

theorem Confined.wellNamed (c : Confined) : c.fileSystem.WellNamed := by
  constructor
  case tempFile =>
    intro draws dir stem
    refine Yields.after fun rel => Yields.after fun r => Yields.after fun _ => ?_
    exact c.opensNamed.unusedFile draws dir stem
  case readDir =>
    intro p
    refine Yields.after fun rel => Yields.after fun r => Yields.after fun found => Yields.pure ?_
    intro e he
    obtain ⟨entry, _, rfl⟩ := List.mem_map.1 he
    exact hasFileName_push _ entry.1

end Engines

section Layers

/-- An entry keeps its name in every directory that it is listed in. -/
theorem DirEntry.hasFileName_listedIn {e : DirEntry} (h : e.path.HasFileName) (parent : Path) :
    (e.listedIn parent).path.HasFileName := by
  obtain ⟨n, hn⟩ := h
  have hname : e.fileName = n.bytes := by rw [DirEntry.fileName, hn, Option.getD_some]
  rw [DirEntry.listedIn, hname]
  exact hasFileName_push parent n

theorem DirEntry.hasFileName_map {entries : List DirEntry}
    (h : ∀ e ∈ entries, e.path.HasFileName) (parent : Path) :
    ∀ e ∈ entries.map (DirEntry.listedIn parent), e.path.HasFileName := by
  intro e he
  obtain ⟨entry, hentry, rfl⟩ := List.mem_map.1 he
  exact DirEntry.hasFileName_listedIn (h entry hentry) parent

theorem Path.hasBaseName_join {q : Path} (h : q.HasBaseName) (dir : Path) :
    (dir.join q.baseName).HasBaseName := by
  obtain ⟨n, hn⟩ := h
  rw [hn]
  have hinner : (⟨n.bytes⟩ : Path).inner = [] ++ [.name n] := inner_name n
  exact ⟨n, baseName_join dir hinner⟩

namespace FileSystem

variable {fs : FileSystem σ H} {part : Part τ σ} {wrap : H → K}

theorem opensNamed_within (h : fs.OpensNamed) :
    (fs.within part wrap).toBareFileSystem.OpensNamed := by
  intro p o
  exact Yields.bind (Yields.within (h p o)) fun f hf => Yields.pure hf

theorem WellNamed.within (h : fs.WellNamed) : (fs.within part wrap).WellNamed := by
  constructor
  case tempFile =>
    intro draws dir stem
    exact Yields.bind (Yields.within (h.tempFile draws dir stem)) fun f hf => Yields.pure hf
  case readDir => exact fun p => Yields.within (h.readDir p)

end FileSystem

namespace Jail

variable {j : Jail σ H}

theorem opensNamed (j : Jail σ H) : j.fileSystem.OpensNamed := by
  intro p o
  exact Yields.after fun full => Yields.after fun f => Yields.pure rfl

theorem tempFile_named (h : ∀ draws dir stem,
      Yields (j.under.tempFile draws dir stem) fun f => f.name.HasBaseName)
    (draws : Draws) (dir : Path) (stem : Bytes) :
    Yields (j.fileSystem.tempFile draws dir stem) fun f => f.name.HasBaseName := by
  refine Yields.after fun full => Yields.bind (h draws full stem) fun f hf => Yields.pure ?_
  exact hasBaseName_join hf dir

theorem readDir_named
    (h : ∀ p, Yields (j.under.readDir p) fun l => ∀ e ∈ l.entries, e.path.HasFileName) (p : Path) :
    Yields (j.fileSystem.readDir p) fun l => ∀ e ∈ l.entries, e.path.HasFileName := by
  refine Yields.after fun full => Yields.bind (h full) fun l hl => Yields.pure ?_
  exact DirEntry.hasFileName_map hl _

end Jail

namespace Mount

variable {m : Mount σ H}

theorem opensNamed (m : Mount σ H) : m.fileSystem.OpensNamed := by
  intro p o
  exact Yields.after fun f => Yields.pure rfl

theorem tempFile_named (h : ∀ r draws dir stem,
      Yields ((m.side r).tempFile draws dir stem) fun f => f.name.HasBaseName)
    (draws : Draws) (dir : Path) (stem : Bytes) :
    Yields (m.fileSystem.tempFile draws dir stem) fun f => f.name.HasBaseName := by
  refine Yields.bind (h _ draws _ stem) fun f hf => Yields.pure ?_
  exact hasBaseName_join hf dir

/-- A mountpoint that is shown is not the top, so that it has a name. -/
theorem hasFileName_point {point p : Path} (hpoint : point.fromTop = point)
    (hshown : (!(route point p).isMounted && point.dirName.same p.fromTop) = true) :
    point.HasFileName := by
  have hnot : ¬ point.names <+: p.names := by
    rw [← isMounted_iff, hpoint]
    simp_all
  rcases List.eq_nil_or_concat point.names with hnil | ⟨names, n, hnames⟩
  · rw [hnil] at hnot
    exact absurd List.nil_prefix hnot
  · rw [List.concat_eq_append] at hnames
    refine ⟨n, ?_⟩
    rw [← hpoint, fromTop_eq, hnames, fileName?, components_ofNames, List.map_append]
    have hlast : (Component.root :: (names.map Component.name ++ [n].map Component.name)) =
        (Component.root :: names.map Component.name) ++ [.name n] := rfl
    rw [hlast, List.getLast?_concat]

theorem readDir_named (hpoint : m.point.fromTop = m.point)
    (h : ∀ r p, Yields ((m.side r).readDir p) fun l => ∀ e ∈ l.entries, e.path.HasFileName)
    (p : Path) :
    Yields (m.fileSystem.readDir p) fun l => ∀ e ∈ l.entries, e.path.HasFileName := by
  have hend : ∀ entries : List DirEntry, (∀ e ∈ entries, e.path.HasFileName) →
      Yields (do
        if (!(route m.point p).isMounted && m.point.dirName.same p.fromTop) &&
            !entries.any fun e => e.path.same m.point then
          return ⟨withPoint m.point (← (m.source.stat Path.top).outcome) entries⟩
        else return ⟨entries⟩ : Action FileError σ Listing)
        fun l => ∀ e ∈ l.entries, e.path.HasFileName := by
    intro entries hentries
    refine Yields.ite (fun hshown => Yields.after fun top => Yields.pure ?_) fun _ =>
      Yields.pure hentries
    rw [Bool.and_eq_true] at hshown
    intro e he
    rcases List.mem_append.1 (List.mem_mergeSort.1 he) with hentry | hnew
    · exact hentries e hentry
    · rw [List.mem_singleton.1 hnew]
      exact hasFileName_point hpoint hshown.1
  refine Yields.bind (Yields.outcome (h _ _)) fun r hr => ?_
  cases r with
  | ok l => exact hend _ (DirEntry.hasFileName_map (hr l rfl) _)
  | error e =>
    cases e with
    | entityNotFound =>
      refine Yields.ite (fun _ => hend [] nofun) fun _ => ?_
      exact Yields.bind (Q := fun _ => False) (Yields.throw _) fun _ hfalse => hfalse.elim
    | _ => exact Yields.bind (Q := fun _ => False) (Yields.throw _) fun _ hfalse => hfalse.elim

end Mount

end Layers

namespace Volume

/-- The mountpoints of the volume are written as seen from the top. -/
def PointsFromTop : Volume → Prop
  | mount under point source => point.fromTop = point ∧ under.PointsFromTop ∧ source.PointsFromTop
  | jail under _ | completed under _ | recorded under _ => under.PointsFromTop
  | memory _ | host _ | confined _ | crowded => True

theorem opensNamed (v : Volume) : v.fileSystem.OpensNamed := by
  induction v with
  | memory i => exact FileSystem.opensNamed_within Memory.opensNamed
  | host h => exact FileSystem.opensNamed_within h.opensNamed
  | confined c => exact FileSystem.opensNamed_within c.opensNamed
  | jail under base ih => exact Jail.opensNamed _
  | mount under point source ih ih' => exact Mount.opensNamed _
  | completed under capabilities ih => exact ih
  | crowded => exact fun p o => Yields.throw _
  | recorded under log ih => exact fun p o => Yields.after fun _ => ih p o

/-- Whatever the volume, a temporary file has a name that an entry can have. -/
theorem tempFile_named (v : Volume) (draws : Draws) (dir : Path) (stem : Bytes) :
    Yields (v.fileSystem.tempFile draws dir stem) fun f => f.name.HasBaseName := by
  induction v generalizing draws dir stem with
  | memory i => exact Memory.wellNamed.within.tempFile draws dir stem
  | host h => exact h.wellNamed.within.tempFile draws dir stem
  | confined c => exact c.wellNamed.within.tempFile draws dir stem
  | jail under base ih => exact Jail.tempFile_named ih draws dir stem
  | mount under point source ih ih' =>
    refine Mount.tempFile_named (fun r => ?_) draws dir stem
    cases r with
    | below p => exact ih
    | mounted p => exact ih'
  | completed under capabilities ih =>
    have hopens : (bareSide under.fileSystem capabilities).OpensNamed := under.opensNamed
    simp only [fileSystem, BareFileSystem.complete]
    exact hopens.unusedFile draws dir stem
  | crowded =>
    have hopens : (BareFileSystem.crowded : BareFileSystem World Handle).OpensNamed :=
      fun p o => Yields.throw _
    simp only [fileSystem, BareFileSystem.complete]
    exact hopens.unusedFile draws dir stem
  | recorded under log ih => exact Yields.after fun _ => ih draws dir stem

theorem readDir_named (v : Volume) (hpoints : v.PointsFromTop) (p : Path) :
    Yields (v.fileSystem.readDir p) fun l => ∀ e ∈ l.entries, e.path.HasFileName := by
  induction v generalizing p with
  | memory i => exact Memory.wellNamed.within.readDir p
  | host h => exact h.wellNamed.within.readDir p
  | confined c => exact c.wellNamed.within.readDir p
  | jail under base ih => exact Jail.readDir_named (ih hpoints) p
  | mount under point source ih ih' =>
    refine Mount.readDir_named hpoints.1 (fun r => ?_) p
    cases r with
    | below p => exact ih hpoints.2.1
    | mounted p => exact ih' hpoints.2.2
  | completed under capabilities ih => exact Yields.throw _
  | crowded => exact Yields.throw _
  | recorded under log ih => exact Yields.after fun _ => ih hpoints p

theorem wellNamed (v : Volume) (h : v.PointsFromTop) : v.fileSystem.WellNamed :=
  ⟨v.tempFile_named, v.readDir_named h⟩

/-- A mount that is made of volumes has its mountpoint as seen from the top. -/
theorem pointsFromTop_mountAt {under source : Volume} (hunder : under.PointsFromTop)
    (hsource : source.PointsFromTop) (point : Path) : (mountAt under point source).PointsFromTop :=
  ⟨(fromTop_eq point).symm ▸ fromTop_ofNames _, hunder, hsource⟩

/-- So are all volumes that come of narrowing others. -/
theorem pointsFromTop_chroot (v : Volume) (h : v.PointsFromTop) (p : Path) :
    Yields (v.chroot p) PointsFromTop := by
  induction v with
  | jail under base ih => exact Yields.after fun _ => Yields.pure h
  | confined c => exact Yields.after fun _ => Yields.pure trivial
  | recorded under log ih => exact Yields.after fun _ => ih h
  | memory i | host c | crowded => exact Yields.pure h
  | mount under point source | completed under capabilities => exact Yields.pure h

end Volume

end ConfinedFs
