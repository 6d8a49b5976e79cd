import ConfinedFs.Proofs.Layer.Operation
import ConfinedFs.Proofs.Path.LastName
import ConfinedFs.Proofs.Rooted.Failures
import ConfinedFs.Proofs.Rooted.Respelling

/-!
Two spellings of a path below the base of a confined host: relative to the base, and absolute, the
base written before it. The absolute one is cleaned without a look at the tree, the relative one is
walked as it is. They mean the same as long as every `..` takes back a directory that can be opened.
After a link, a file or a name that is missing they do not, and neither do they where an entry is to
be changed, as when it is removed, if the path ends in a `..`.
-/

namespace ConfinedFs

open ConfinedFs.Os ConfinedFs.Path
open ConfinedFs.Action (Keeps)
open ConfinedFs.Root (LastUse Matches Work)

variable {H α β : Type}

namespace Operation

/-- The operation with its paths in another form. -/
def mapPaths (f : Path → Path) : Operation H α → Operation H α
  | openFile p o => openFile (f p) o
  | stat p => stat (f p)
  | lstat p => lstat (f p)
  | rename source target => rename (f source) (f target)
  | remove p => remove (f p)
  | tempFile draws dir stem => tempFile draws (f dir) stem
  | readDir p => readDir (f p)
  | createDirAll p mode => createDirAll (f p) mode
  | symlink target link => symlink target (f link)
  | readlink p => readlink (f p)

/-- What becomes of the entry in the last place? -/
def lastUse : Operation H α → LastUse
  | openFile _ _ | stat _ | tempFile _ _ _ | readDir _ | createDirAll _ _ => .followed
  | lstat _ | readlink _ => .described
  | symlink target _ => .ofTarget target
  | rename _ _ | remove _ => .changed

/-- Does no name that is tried for a temporary file lead out of the base? -/
def StaysInside : Operation H α → Prop
  | tempFile draws dir stem => ∀ i,
    (BareFileSystem.tempCandidate draws dir stem i).isAbsolute = dir.isAbsolute ∧
      (BareFileSystem.tempCandidate draws dir stem i).climbsOut = false
  | _ => True

/-- Are the results the same, but for the names that are reported in them? -/
def SameResult : Operation H α → α → α → Prop
  | openFile _ _, f, g => f.handle = g.handle
  | tempFile _ _ _, f, g => f.handle = g.handle
  | stat _, m, m' => { m with name := m'.name } = m'
  | lstat _, m, m' => { m with name := m'.name } = m'
  | readDir _, l, l' => l.entries.map (fun e => (e.fileName, e.metadata)) =
      l'.entries.map fun e => (e.fileName, e.metadata)
  | _, a, b => a = b

end Operation

namespace Confined

variable {c : Confined} {r : Root} {t u : Tree} {p q rel rel' : Path} {use : LastUse}

/-- A relative path that stays below the base and whose every `..` takes back a directory there. -/
structure Retraceable (c : Confined) (t : Tree) (use : LastUse) (p : Path) : Prop where
  relative : p.isAbsolute = false
  stays : p.climbsOut = false
  retraces : ∀ r, c.root t = (.ok r, t) → r.Retraces t use [] p.steps

/-- The second path is the first one, or it is spelled with the base before it. -/
def Respells (c : Confined) (t : Tree) (use : LastUse) (p q : Path) : Prop :=
  q = p ∨ q = c.base.under p ∧ c.Retraceable t use p

section Relative

/-- What both spellings are relative to the base. -/
structure Rewords (c : Confined) (t : Tree) (use : LastUse) (rel rel' : Path) : Prop where
  clean : rel'.clean = rel.clean
  respells : ∀ r, c.root t = (.ok r, t) → r.Respells t use rel rel'

theorem Rewords.isHere_eq (h : c.Rewords t use rel rel') : rel'.isHere = rel.isHere := by
  rw [isHere, isHere, h.clean]

theorem Rewords.ensureAbove_eq (h : c.Rewords t use rel rel') (r : Root) :
    ensureAbove r rel' = ensureAbove r rel := by
  have hdir : rel'.dirName = rel.dirName := by simp only [dirName, h.clean]
  rw [ensureAbove, ensureAbove, hdir]

theorem Rewords.refl (c : Confined) (t : Tree) (use : LastUse) (rel : Path) :
    c.Rewords t use rel rel :=
  ⟨rfl, fun _ _ => .inl rfl⟩

theorem relative_of_relative (h : p.isAbsolute = false) :
    c.relative p = .ok (if p.isEmpty then here else p) := by
  unfold relative
  rw [if_neg (Bool.eq_false_iff.1 h)]
  split <;> rfl

variable (hbase : c.base.isAbsolute = true)

include hbase

theorem relative_under (hrelative : p.isAbsolute = false) (hstays : p.climbsOut = false) :
    c.relative (c.base.under p) = .ok p.clean := by
  rw [relative, if_pos (isAbsolute_under hbase p), remainder?_under hbase hrelative hstays,
    clean_eq_below hrelative hstays]

/-- Both spellings are taken for the same path, or for a path and its cleaned form. -/
theorem relative_cases (h : c.Respells t use p q) :
    (∃ e, c.relative p = .error e ∧ c.relative q = .error e) ∨
      ∃ rel rel', c.relative p = .ok rel ∧ c.relative q = .ok rel' ∧
        c.Rewords t use rel rel' := by
  obtain rfl | ⟨rfl, hrelative, hstays, hretraces⟩ := h
  · cases hrel : c.relative q with
    | ok rel => exact .inr ⟨rel, rel, rfl, rfl, .refl c t use rel⟩
    | error e => exact .inl ⟨e, rfl, rfl⟩
  · have hunder := relative_under hbase hrelative hstays
    have hrel := relative_of_relative (c := c) hrelative
    cases hempty : p.isEmpty with
    | true =>
      have hp : p = ⟨[]⟩ := congrArg Path.mk (List.isEmpty_iff.1 hempty)
      subst hp
      exact .inr ⟨here, here, hrel, hunder, .refl c t use here⟩
    | false =>
      rw [hempty] at hrel
      refine .inr ⟨p, p.clean, hrel, hunder, clean_clean p, fun r hr => .inr ⟨rfl, ?_⟩⟩
      exact ⟨hrelative, hstays, hretraces r hr⟩

theorem matches_relative (h : c.Respells t use p q) {Q : α → β → Prop} {f : Path → Work α}
    {g : Path → Work β}
    (hf : ∀ rel rel', c.Rewords t use rel rel' → Matches Q (f rel) (g rel') t) :
    Matches Q (Action.ofExcept (c.relative p) >>= f)
      (Action.ofExcept (c.relative q) >>= g) t := by
  obtain ⟨e, hp, hq⟩ | ⟨rel, rel', hp, hq, hrewords⟩ := relative_cases hbase h
  · rw [hp, hq]
    exact ⟨rfl, rfl⟩
  · rw [hp, hq]
    exact hf rel rel' hrewords

end Relative

/-- The base is opened once. -/
theorem matches_root {Q : α → β → Prop} {f : Root → Work α} {g : Root → Work β}
    (hf : ∀ r, c.root t = (.ok r, t) → Matches Q (f r) (g r) t) :
    Matches Q (c.root >>= f) (c.root >>= g) t := by
  refine (Matches.refl c.root t).bind ?_
  rintro r _ u hrun - rfl
  cases (c.keeps_root (P := (· = t))).of_run rfl hrun
  exact hf r hrun

section Operations

variable (hbase : c.base.isAbsolute = true)

include hbase

/-- What is asked of the root about either spelling. -/
theorem matches_ask (h : c.Respells t use p q) {Q : α → β → Prop}
    {f : Path → Root → Work α} {g : Path → Root → Work β}
    (hf : ∀ r rel rel', c.Rewords t use rel rel' → r.Respells t use rel rel' →
      Matches Q (f rel r) (g rel' r) t) :
    Matches Q (Action.ofExcept (c.relative p) >>= fun rel => c.root >>= f rel)
      (Action.ofExcept (c.relative q) >>= fun rel => c.root >>= g rel) t :=
  matches_relative hbase h fun rel rel' hrewords =>
    matches_root fun r hr => hf r rel rel' hrewords (hrewords.respells r hr)

theorem matches_stat (h : c.Respells t .followed p q) :
    Matches (fun m m' => { m with name := m'.name } = m') (c.stat p) (c.stat q) t := by
  refine matches_ask hbase h fun r rel rel' _ hrespells => ?_
  refine (hrespells.matches Root.Retraceable.stat).bind ?_
  rintro s _ u - - rfl
  exact .pure rfl

theorem matches_lstat (h : c.Respells t .described p q) :
    Matches (fun m m' => { m with name := m'.name } = m') (c.lstat p) (c.lstat q) t := by
  refine matches_ask hbase h fun r rel rel' _ hrespells => ?_
  refine (hrespells.matches Root.Retraceable.lstat).bind ?_
  rintro s _ u - - rfl
  exact .pure rfl

theorem matches_readlink (h : c.Respells t .described p q) :
    Matches Eq (c.readlink p) (c.readlink q) t :=
  matches_ask hbase h fun _ _ _ _ hrespells => hrespells.matches Root.Retraceable.readlink

theorem matches_remove (h : c.Respells t .changed p q) :
    Matches Eq (c.remove p) (c.remove q) t := by
  refine matches_relative hbase h fun rel rel' hrewords => ?_
  rw [hrewords.isHere_eq]
  split
  · exact ⟨rfl, rfl⟩
  · exact matches_root fun r hr => (hrewords.respells r hr).matches Root.Retraceable.remove

theorem matches_removeAll (h : c.Respells t .changed p q) :
    Matches Eq (c.removeAll p) (c.removeAll q) t := by
  refine matches_relative hbase h fun rel rel' hrewords => ?_
  rw [hrewords.isHere_eq]
  split
  · exact ⟨rfl, rfl⟩
  · exact matches_root fun r hr => (hrewords.respells r hr).matches Root.Retraceable.removeAll

/-- An entry has its own name in a listing, whatever the directory is called. -/
theorem matches_readDir (h : c.Respells t .followed p q) :
    Matches (fun l l' : Listing => l.entries.map (fun e => (e.fileName, e.metadata)) =
      l'.entries.map fun e => (e.fileName, e.metadata)) (c.readDir p) (c.readDir q) t := by
  refine matches_ask hbase h fun r rel rel' _ hrespells => ?_
  refine (hrespells.matches Root.Retraceable.readDir).bind ?_
  rintro found _ u - - rfl
  refine .pure ?_
  have hentry : ∀ (p : Path) (n : Name) (s : Stat),
      (DirEntry.fileName ⟨p.push ⟨n.bytes⟩, .ok (s.metadata (p.push ⟨n.bytes⟩))⟩,
        (.ok (s.metadata (p.push ⟨n.bytes⟩)) : Except FileError Metadata)) =
      (n.bytes, .ok (s.metadata ⟨n.bytes⟩)) := by
    intro p n s
    have hrelative : (⟨n.bytes⟩ : Path).isAbsolute = false := isAbsolute_below [n]
    have hinner : (p.push ⟨n.bytes⟩).inner = p.inner ++ [.name n] := by
      rw [inner_push p hrelative, inner_name]
    have hname : (⟨n.bytes⟩ : Path).inner = [] ++ [.name n] := inner_name n
    rw [DirEntry.fileName, fileName?_push, Stat.metadata, Stat.metadata, baseName_of_inner hinner,
      baseName_of_inner hname]
    rfl
  simp only [List.map_map, Function.comp_def, hentry]

theorem matches_createDirAll (ht : t.Sound) (h : c.Respells t .followed p q) (mode : UInt32) :
    Matches Eq (c.createDirAll p mode) (c.createDirAll q mode) t :=
  matches_ask hbase h fun _ _ _ _ hrespells =>
    hrespells.matches (f := (Root.ensureDirs _ · mode)) fun hp => hp.ensureDirs ht mode

omit hbase

/-- The directories above either spelling are the same ones, and whatever is created there, the rest
of the tree is as it was. -/
theorem matches_ensureAbove (ht : t.Sound) (r : Root) (rel : Path) {Q : α → β → Prop} {x : Work α}
    {y : Work β} (h : ∀ u, Call.Gained t u → Matches Q x y u) :
    Matches Q (ensureAbove r rel >>= fun _ => x) (ensureAbove r rel >>= fun _ => y) t := by
  refine (Matches.refl (ensureAbove r rel) t).bind ?_
  rintro _ _ u hrun - -
  have hkeeps := keeps_ensureAbove (Call.keeps_gained_mkdir t) r rel
  exact h u (hkeeps.of_run ⟨.refl t, ht⟩ hrun)

include hbase

theorem matches_openFile (ht : t.Sound) (h : c.Respells t .followed p q) (o : OpenOptions) :
    Matches (fun f f' : OpenFile Os.FileHandle => f.handle = f'.handle) (c.openFile p o)
      (c.openFile q o) t := by
  refine matches_ask hbase h fun r rel rel' hrewords hrespells => ?_
  have hopen : ∀ u, Call.Gained t u →
      Matches (fun f f' : OpenFile Os.FileHandle => f.handle = f'.handle)
      (do return { handle := ← r.openFile rel o, path := p } : Work (OpenFile Os.FileHandle))
      (do return { handle := ← r.openFile rel' o, path := q }) u := by
    intro u hu
    refine ((hrespells.gains hu.1).matches (f := (r.openFile · o)) fun hp => hp.openFile o).bind ?_
    rintro k _ v - - rfl
    exact .pure rfl
  rw [hrewords.ensureAbove_eq]
  split
  · exact matches_ensureAbove ht r rel hopen
  · exact hopen t ⟨.refl t, ht⟩

theorem matches_symlink (ht : t.Sound) {target : Path} (h : c.Respells t (.ofTarget target) p q) :
    Matches Eq (c.symlink target p) (c.symlink target q) t := by
  refine matches_ask hbase h fun r rel rel' hrewords hrespells => ?_
  rw [hrewords.ensureAbove_eq]
  refine matches_ensureAbove ht r rel fun u hu => ?_
  exact (hrespells.gains hu.1).matches Root.Retraceable.symlink

/-- Either of the paths may be spelled in either way. -/
theorem matches_rename (ht : t.Sound) {a b : Path} (h : c.Respells t .changed p q)
    (h' : c.Respells t .changed a b) : Matches Eq (c.rename p a) (c.rename q b) t := by
  refine matches_relative hbase h fun source source' hsource => ?_
  refine matches_relative hbase h' fun target target' htarget => ?_
  rw [hsource.isHere_eq, htarget.isHere_eq]
  split
  · exact ⟨rfl, rfl⟩
  · refine matches_root fun r hr => ?_
    rw [htarget.ensureAbove_eq]
    refine matches_ensureAbove ht r target fun u hu => ?_
    have hfirst := ((hsource.respells r hr).gains hu.1).matches (f := (r.rename · target))
      fun hp => hp.rename_source target
    exact hfirst.trans (((htarget.respells r hr).gains hu.1).matches fun hp =>
      hp.rename_target source')

/-- The directory that is made and opened is the same one. -/
theorem matches_narrow (ht : t.Sound) (h : c.Respells t .followed p q) :
    Matches Eq (c.narrow p) (c.narrow q) t := by
  refine matches_ask hbase h fun r rel rel' _ hrespells => ?_
  have hlast : ∀ (k : Root → Confined) u, Call.Gained t u → Matches Eq
      (do
        if !(← r.stat rel).isDir then throw .baseNotDirectory
        let sub ← r.openRoot rel
        return k sub : Work Confined)
      (do
        if !(← r.stat rel').isDir then throw .baseNotDirectory
        let sub ← r.openRoot rel'
        return k sub) u := by
    intro k u hu
    refine ((hrespells.gains hu.1).matches Root.Retraceable.stat).bind ?_
    rintro s _ v hrun - rfl
    cases (Root.keeps_stat (P := (· = u)) r rel).of_run rfl hrun
    split
    · exact ⟨rfl, rfl⟩
    · refine ((hrespells.gains hu.1).matches Root.Retraceable.openRoot).bind ?_
      rintro sub _ w - - rfl
      exact .refl _ w
  have hdirs := Root.keeps_ensureDirs (Call.keeps_gained_mkdir t) r rel FileSystem.defaultDirMode
  refine (hrespells.matches (f := (r.ensureDirs · FileSystem.defaultDirMode)) fun hp =>
    hp.ensureDirs ht _).outcome_bind ?_ (fun e u _ => ?_) fun _ _ _ => ⟨rfl, rfl⟩
  · rintro _ _ u hrun -
    exact hlast _ u (hdirs.of_run ⟨.refl t, ht⟩ hrun)
  · cases e with
    | alreadyExists => exact ⟨rfl, rfl⟩
    | _ => exact ⟨rfl, rfl⟩

/-- A name that is tried for a temporary file is the same one below either spelling. -/
theorem relative_join (h : c.Respells t use p q) {w : Path}
    (habsolute : (p.join w).isAbsolute = p.isAbsolute) (hstays : (p.join w).climbsOut = false) :
    c.relative (q.join w) = c.relative (p.join w) := by
  obtain rfl | ⟨rfl, hp⟩ := h
  · rfl
  · rw [hp.relative] at habsolute
    obtain ⟨k, hk, hjoin, hunder⟩ := exists_join_under hbase habsolute
    rw [hjoin, climbsOut_clean] at hstays
    have hq : (c.base.under k).clean.isAbsolute = true :=
      (isAbsolute_clean _).trans (isAbsolute_under hbase k)
    have hremainder : c.base.remainder? (c.base.under k).clean = some k.clean := by
      rw [clean_eq_below hk hstays, ← remainder?_under hbase hk hstays, remainder?, remainder?,
        clean_clean]
    rw [hunder, hjoin, relative_of_relative ((isAbsolute_clean k).trans hk), isEmpty_clean,
      relative, if_pos hq, hremainder]
    rfl

omit hbase

theorem matches_openFile_of_relative (h : c.relative q = c.relative p) (o : OpenOptions) :
    Matches (fun f f' : OpenFile Os.FileHandle => f.handle = f'.handle) (c.openFile p o)
      (c.openFile q o) t := by
  unfold openFile
  rw [h]
  refine (Matches.refl _ t).bind ?_
  rintro rel _ u - - rfl
  refine (Matches.refl c.root u).bind ?_
  rintro r _ v - - rfl
  have hopen : ∀ v, Matches (fun f f' : OpenFile Os.FileHandle => f.handle = f'.handle)
      (do return { handle := ← r.openFile rel o, path := p } : Work (OpenFile Os.FileHandle))
      (do return { handle := ← r.openFile rel o, path := q }) v := by
    intro v
    refine (Matches.refl (r.openFile rel o) v).bind ?_
    rintro k _ w - - rfl
    exact .pure rfl
  split
  · refine (Matches.refl (ensureAbove r rel) v).bind ?_
    rintro _ _ w - - -
    exact hopen w
  · exact hopen v

theorem matches_openUnused {candidate candidate' : Nat → Path}
    (h : ∀ i, c.relative (candidate' i) = c.relative (candidate i)) (attempts : List Nat) :
    Matches (fun f f' : OpenFile Os.FileHandle => f.handle = f'.handle)
      (c.bareFileSystem.openUnused candidate attempts)
      (c.bareFileSystem.openUnused candidate' attempts) t := by
  induction attempts generalizing t with
  | nil => exact ⟨rfl, rfl⟩
  | cons i attempts ih =>
    refine (matches_openFile_of_relative (h i) .temporary).outcome_bind
      (fun f f' u _ hf => .pure hf) (fun e u _ => ?_) fun _ _ _ => ⟨rfl, rfl⟩
    cases e with
    | alreadyExists => exact ih
    | _ => exact ⟨rfl, rfl⟩

include hbase

theorem matches_tempFile (ht : t.Sound) (h : c.Respells t .followed p q) (draws : Draws)
    (stem : Bytes) (hstays : (Operation.tempFile (H := Os.FileHandle) draws p stem).StaysInside) :
    Matches (fun f f' : OpenFile Os.FileHandle => f.handle = f'.handle)
      (c.fileSystem.tempFile draws p stem) (c.fileSystem.tempFile draws q stem) t := by
  refine matches_ask hbase h fun r rel rel' _ hrespells => ?_
  refine (hrespells.matches (f := (r.ensureDirs · FileSystem.defaultDirMode)) fun hp =>
    hp.ensureDirs ht _).bind ?_
  rintro _ _ u - - -
  exact matches_openUnused (fun i => relative_join hbase h (hstays i).1 (hstays i).2) _

end Operations

/-- The paths of an operation may be spelled in either way. The outcome is the same, up to the names
that are reported and the path of a refusal, and so is the tree afterwards. -/
theorem perform_respelled (ht : t.Sound) (hbase : c.base.isAbsolute = true) :
    (∀ {α : Type} (op : Operation Os.FileHandle α) (f : Path → Path), op.StaysInside →
      (∀ p ∈ op.paths, c.Respells t op.lastUse p (f p)) →
      Matches op.SameResult (c.fileSystem.perform op) (c.fileSystem.perform (op.mapPaths f)) t) ∧
    (∀ p q, c.Respells t .changed p q → Matches Eq (c.removeAll p) (c.removeAll q) t) ∧
    ∀ p q, c.Respells t .followed p q → Matches Eq (c.narrow p) (c.narrow q) t := by
  refine ⟨fun op f hstays h => ?_, fun p q => matches_removeAll hbase,
    fun p q => matches_narrow hbase ht⟩
  have hfirst : ∀ p rest, op.paths = p :: rest → c.Respells t op.lastUse p (f p) :=
    fun p rest hpaths => h p (hpaths ▸ List.mem_cons_self ..)
  cases op with
  | openFile p o => exact matches_openFile hbase ht (hfirst p [] rfl) o
  | stat p => exact matches_stat hbase (hfirst p [] rfl)
  | lstat p => exact matches_lstat hbase (hfirst p [] rfl)
  | rename source target =>
    have htarget : target ∈ (Operation.rename source target : Operation Os.FileHandle _).paths := by
      simp [Operation.paths]
    exact matches_rename hbase ht (hfirst source [target] rfl) (h target htarget)
  | remove p => exact matches_remove hbase (hfirst p [] rfl)
  | tempFile draws dir stem =>
    exact matches_tempFile hbase ht (hfirst dir [] rfl) draws stem hstays
  | readDir p => exact matches_readDir hbase (hfirst p [] rfl)
  | createDirAll p mode => exact matches_createDirAll hbase ht (hfirst p [] rfl) mode
  | symlink target link => exact matches_symlink hbase ht (hfirst link [] rfl)
  | readlink p => exact matches_readlink hbase (hfirst p [] rfl)

section Scene

private def quayName : Name := ⟨[113], by decide⟩

private def pierName : Name := ⟨[117], by decide⟩

private def berthName : Name := ⟨[119], by decide⟩

private def ropeName : Name := ⟨[121], by decide⟩

private def crateName : Name := ⟨[122], by decide⟩

private def nookName : Name := ⟨[110], by decide⟩

private def hatchName : Name := ⟨[101], by decide⟩

private def quay : NodeId := Tree.top.child 0

private def quayPath : Path := ofNames [quayName]

/-- Three directories, each in the one before, one that may not be opened, a link to the second of
the three, and a file. -/
private def harbour : Call Descriptor := do
  Call.mkdir (.entry Tree.top quayName) 0o755
  Call.mkdir (.entry quay pierName) 0o700
  Call.mkdir (.entry (quay.child 0) berthName) 0o755
  Call.mkdir (.entry ((quay.child 0).child 0) nookName) 0o755
  Call.mkdir (.entry quay hatchName) 0o000
  Call.symlink ⟨[117, 47, 119]⟩ (.entry quay ropeName)
  Call.openAt (Host.openFlags .touching) (.entry quay crateName) false

private def harbourTree : Tree := (harbour .fresh).2

private theorem sound_harbourTree : harbourTree.Sound := by
  have hkeeps : Keeps Tree.Sound harbour :=
    .bind (Call.keeps_sound_mkdir _ _) fun _ => .bind (Call.keeps_sound_mkdir _ _) fun _ =>
      .bind (Call.keeps_sound_mkdir _ _) fun _ => .bind (Call.keeps_sound_mkdir _ _) fun _ =>
        .bind (Call.keeps_sound_mkdir _ _) fun _ => .bind (Call.keeps_sound_symlink _ _) fun _ =>
          Call.keeps_sound_openAt _ _ _
  exact hkeeps.apply Tree.sound_fresh

/-- A path down into two directories, up again and down to a name that is new. -/
private def roundabout : Path := ⟨[117, 47, 119, 47, 46, 46, 47, 110]⟩

theorem perform_respelled_roundabout :
    let c := Confined.perCall quayPath
    let op : Operation Os.FileHandle (OpenFile Os.FileHandle) := .openFile roundabout .creating
    harbourTree.Sound ∧ c.base.isAbsolute = true ∧ op.StaysInside ∧
      (∀ p ∈ op.paths, c.Respells harbourTree op.lastUse p (c.base.under p)) ∧
      Matches op.SameResult (c.fileSystem.perform op)
        (c.fileSystem.perform (op.mapPaths c.base.under)) harbourTree := by
  intro c op
  have hroot : c.root harbourTree = (.ok ⟨quay, quayPath⟩, harbourTree) := rfl
  have hrespells : ∀ p ∈ op.paths, c.Respells harbourTree op.lastUse p (c.base.under p) := by
    intro p hp
    cases List.mem_singleton.1 hp
    refine .inr ⟨rfl, rfl, rfl, fun r hr => ?_⟩
    rw [hroot] at hr
    cases hr
    exact ⟨⟨_, berthName, _, rfl, rfl, rfl⟩, fun _ => trivial, trivial⟩
  exact ⟨sound_harbourTree, rfl, trivial, hrespells,
    (perform_respelled sound_harbourTree rfl).1 op c.base.under trivial hrespells⟩

/-- The spellings differ where a step up takes back a name that is missing, a link, a file or a
directory that may not be opened. Where it is the last step, they differ in what is to be removed,
in whether a link is described and in what is wrong with a target. The name of a temporary file that
leads out of the base and back is refused in one spelling only. -/
theorem spellings_differ :
    let c := Confined.perCall quayPath
    let fs := c.fileSystem
    let missing : Path := ⟨[110, 47, 46, 46, 47, 117]⟩
    let linked : Path := ⟨[121, 47, 46, 46]⟩
    let filed : Path := ⟨[122, 47, 46, 46, 47, 117]⟩
    let barred : Path := ⟨[101, 47, 46, 46, 47, 117]⟩
    let last : Path := ⟨[117, 47, 119, 47, 46, 46]⟩
    let lastLinked : Path := ⟨[121, 47, 110, 47, 46, 46]⟩
    let pier : Path := ⟨[117]⟩
    let outAndBack : Bytes := [46, 46, 47, 46, 46, 47, 113, 47]
    (harbourTree.Sound ∧ harbourTree.canonical quayPath = .ok quayPath ∧
      ∀ p ∈ [missing, linked, filed, barred, last, lastLinked, pier],
        p.isAbsolute = false ∧ p.climbsOut = false) ∧
    (c.stat missing harbourTree).1 = .error .entityNotFound ∧
    (c.stat (quayPath.under missing) harbourTree).1.isOk = true ∧
    (c.stat linked harbourTree).1.map (·.perm) = .ok 0o700 ∧
    (c.stat (quayPath.under linked) harbourTree).1.map (·.perm) = .ok 0o755 ∧
    (c.stat filed harbourTree).1 = .error .baseNotDirectory ∧
    (c.stat (quayPath.under filed) harbourTree).1.isOk = true ∧
    (c.stat barred harbourTree).1 = .error .permissionDenied ∧
    (c.stat (quayPath.under barred) harbourTree).1.isOk = true ∧
    (c.remove last harbourTree).1 = .error .invalidInput ∧
    (c.remove (quayPath.under last) harbourTree).1 = .error .directoryNotEmpty ∧
    (c.lstat lastLinked harbourTree).1.map (·.isSymlink) = .ok false ∧
    (c.lstat (quayPath.under lastLinked) harbourTree).1.map (·.isSymlink) = .ok true ∧
    (c.symlink ⟨[]⟩ last harbourTree).1 = .error .alreadyExists ∧
    (c.symlink ⟨[]⟩ (quayPath.under last) harbourTree).1 = .error .entityNotFound ∧
    (fs.tempFile (fun _ => 0) pier outAndBack harbourTree).1.isOk = false ∧
    (fs.tempFile (fun _ => 0) (quayPath.under pier) outAndBack harbourTree).1.isOk = true :=
  ⟨⟨sound_harbourTree, rfl, by decide⟩, rfl, rfl, rfl, rfl, rfl, rfl, rfl, rfl, rfl, rfl, rfl, rfl,
    rfl, rfl, by decide +kernel, by decide +kernel⟩

end Scene

end Confined

end ConfinedFs
