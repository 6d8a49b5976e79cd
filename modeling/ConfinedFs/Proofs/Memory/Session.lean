import ConfinedFs.Proofs.Memory.Atomic
import ConfinedFs.Proofs.Memory.Handles
import ConfinedFs.Proofs.Path.Clean

/-!
Sessions. A session begins with a tree that has nothing but its top, and every call
to the filesystem or to a file it has handed out takes it one step further. No
step, whether the call succeeds or fails, leaves a tree that is not well-formed.
-/

namespace ConfinedFs.Memory

open ConfinedFs.Action (Keeps)

/-- Something that is used with a well-formed tree. -/
def Backed {H : Type} (s : H × Memory) : Prop := s.2.WellFormed

/-- Data is written into a cell; the tree stays as it is. -/
theorem Handle.stable_backed : Handle.Stable Backed where
  moveTo _ _ hs := hs
  putData _ s hs := WellFormed.modifyCell hs s.1.cell _
  close _ hs := hs

/-- A call to an open file. -/
inductive FileCall where
  | read (n : Nat)
  | readExact (n : Nat)
  | readToEnd
  | readToString
  | write (data : Bytes)
  | writeAll (data : Bytes)
  | flush
  | seek (target : SeekTarget)
  | position
  | readAt (n offset : Nat)
  | writeAt (data : Bytes) (offset : Nat)
  | truncate (size : Nat)
  | metadata
  | size
  | lock
  | unlock
  | close

namespace FileCall

/-- The file and the tree after a call. -/
def run (c : FileCall) (s : OpenFile Handle × Memory) : OpenFile Handle × Memory :=
  match c with
  | read n => (OpenFile.read n s).2
  | readExact n => (OpenFile.readExact n s).2
  | readToEnd => (OpenFile.readToEnd s).2
  | readToString => (OpenFile.readToString s).2
  | write data => (OpenFile.write data s).2
  | writeAll data => (OpenFile.writeAll data s).2
  | flush => (OpenFile.flush s).2
  | seek target => (OpenFile.seek target s).2
  | position => (OpenFile.position s).2
  | readAt n offset => (OpenFile.readAt n offset s).2
  | writeAt data offset => (OpenFile.writeAt data offset s).2
  | truncate length => (OpenFile.truncate length s).2
  | metadata => (OpenFile.metadata s).2
  | size => (OpenFile.size s).2
  | lock => (OpenFile.lock s).2
  | unlock => (OpenFile.unlock s).2
  | close => (OpenFile.close s).2

theorem keeps_device {ε α : Type} {x : Action ε (Handle × Memory) α} (hx : Keeps Backed x) :
    Keeps Backed (x.within (OpenFile.device (H := Handle) (σ := Memory))) :=
  hx.within (fun _ hs => hs) fun _ _ _ ht => ht

theorem keeps_read (n : Nat) : Keeps Backed (OpenFile.read (σ := Memory) n) :=
  keeps_device (Keeps.mapError (Handle.stable_backed.keeps_read n))

theorem keeps_readToEnd : Keeps Backed (OpenFile.readToEnd (σ := Memory)) :=
  keeps_device (Keeps.mapError Handle.stable_backed.keeps_readRest)

theorem keeps_write (data : Bytes) : Keeps Backed (OpenFile.write (σ := Memory) data) :=
  keeps_device (Keeps.mapError (Handle.stable_backed.keeps_write data))

theorem keeps_seek (target : SeekTarget) : Keeps Backed (OpenFile.seek (σ := Memory) target) :=
  keeps_device (Handle.stable_backed.keeps_seek target)

theorem keeps_metadata : Keeps Backed (OpenFile.metadata (σ := Memory)) := by
  unfold OpenFile.metadata
  apply Keeps.of_state
  exact fun s => keeps_device (Handle.keeps_metadata s.1.name)

theorem keeps_readWithin (calls n : Nat) :
    Keeps Backed (OpenFile.readWithin (σ := Memory) calls n) := by
  induction calls generalizing n with
  | zero => exact Keeps.pure _
  | succ calls ih =>
    apply Keeps.ite (Keeps.pure _)
    apply Keeps.bind (keeps_read n)
    intro found
    exact Keeps.ite (Keeps.pure _) (Keeps.bind (ih _) fun _ => Keeps.pure _)

theorem keeps_readExact (n : Nat) : Keeps Backed (OpenFile.readExact (σ := Memory) n) := by
  apply Keeps.bind (keeps_readWithin n n)
  intro data
  exact Keeps.when (Keeps.throw _) (Keeps.pure _)

theorem keeps_readToString : Keeps Backed (OpenFile.readToString (σ := Memory)) := by
  unfold OpenFile.readToString
  apply Keeps.bind keeps_readToEnd
  intro data
  cases Utf8.text? data with
  | some text => exact Keeps.pure _
  | none => exact Keeps.throw _

theorem keeps_writeWithin (calls : Nat) (data : Bytes) :
    Keeps Backed (OpenFile.writeWithin (σ := Memory) calls data) := by
  induction calls generalizing data with
  | zero => exact Keeps.pure _
  | succ calls ih =>
    apply Keeps.ite (Keeps.pure _)
    apply Keeps.bind (keeps_write data)
    intro count
    exact Keeps.when (Keeps.throw _) (ih _)

theorem keeps_writeAll (data : Bytes) : Keeps Backed (OpenFile.writeAll (σ := Memory) data) :=
  keeps_writeWithin data.length data

/-- No call to an open file harms the tree. -/
theorem backed_run (c : FileCall) {s : OpenFile Handle × Memory} (hs : Backed s) :
    Backed (c.run s) := by
  cases c with
  | read n => exact (keeps_read n).apply hs
  | readExact n => exact (keeps_readExact n).apply hs
  | readToEnd => exact keeps_readToEnd.apply hs
  | readToString => exact keeps_readToString.apply hs
  | write data => exact (keeps_write data).apply hs
  | writeAll data => exact (keeps_writeAll data).apply hs
  | flush => exact (keeps_device (Keeps.mapError Handle.keeps_requireOpen)).apply hs
  | seek target => exact (keeps_seek target).apply hs
  | position => exact (keeps_seek _).apply hs
  | readAt n offset => exact (keeps_device (Handle.keeps_readAt n offset)).apply hs
  | writeAt data offset => exact (keeps_device (Handle.stable_backed.keeps_writeAt data offset)).apply hs
  | truncate length => exact (keeps_device (Handle.stable_backed.keeps_truncate length)).apply hs
  | metadata => exact keeps_metadata.apply hs
  | size => exact (Keeps.bind keeps_metadata fun _ => Keeps.pure _).apply hs
  | lock => exact (keeps_device Handle.keeps_requireOpen).apply hs
  | unlock => exact (keeps_device Handle.keeps_requireOpen).apply hs
  | close => exact (keeps_device Handle.stable_backed.keeps_close).apply hs

end FileCall

/-- A call to the filesystem, or to one of the files it has handed out. -/
inductive Call where
  | openFile (p : Path) (o : OpenOptions)
  | tempFile (draws : Draws) (dir : Path) (stem : Bytes)
  | createDirAll (p : Path) (mode : UInt32)
  | symlink (target link : Path)
  | rename (source target : Path)
  | remove (p : Path)
  | stat (p : Path)
  | lstat (p : Path)
  | readDir (p : Path)
  | readlink (p : Path)
  | toFile (i : Nat) (c : FileCall)

/-- A tree and the files that have been handed out, the first one first. -/
structure Session where
  memory : Memory := .fresh
  files : List (OpenFile Handle) := []

namespace Session

/-- The session after an operation on the tree, whatever comes of it. -/
def after {α : Type} (s : Session) (x : Action FileError Memory α) : Session :=
  { s with memory := (x s.memory).2 }

/-- The session after an operation that may hand out a file. -/
def afterOpening (s : Session) (x : Action FileError Memory (OpenFile Handle)) : Session :=
  match x s.memory with
  | (.ok f, m) => ⟨m, s.files ++ [f]⟩
  | (.error _, m) => { s with memory := m }

/-- The session after a call to one of its files. -/
def afterFile (s : Session) (i : Nat) (c : FileCall) : Session :=
  match s.files[i]? with
  | some f => ⟨(c.run (f, s.memory)).2, s.files.set i (c.run (f, s.memory)).1⟩
  | none => s

/-- The session after a call. -/
def step (s : Session) : Call → Session
  | .openFile p o => s.afterOpening (fileSystem.openFile p o)
  | .tempFile draws dir stem => s.afterOpening (fileSystem.tempFile draws dir stem)
  | .createDirAll p mode => s.after (fileSystem.createDirAll p mode)
  | .symlink target link => s.after (fileSystem.symlink target link)
  | .rename source target => s.after (fileSystem.rename source target)
  | .remove p => s.after (fileSystem.remove p)
  | .stat p => s.after (fileSystem.stat p)
  | .lstat p => s.after (fileSystem.lstat p)
  | .readDir p => s.after (fileSystem.readDir p)
  | .readlink p => s.after (fileSystem.readlink p)
  | .toFile i c => s.afterFile i c

/-- The session after all of the calls, in order. -/
def run (calls : List Call) : Session := calls.foldl step {}

variable {s : Session}

theorem wellFormed_afterOpening {x : Action FileError Memory (OpenFile Handle)}
    (hx : (x s.memory).2.WellFormed) : (s.afterOpening x).memory.WellFormed := by
  unfold afterOpening
  cases hxs : x s.memory with
  | mk r m =>
    rw [hxs] at hx
    cases r with
    | ok f => exact hx
    | error e => exact hx

theorem wellFormed_afterFile (hs : s.memory.WellFormed) (i : Nat) (c : FileCall) :
    (s.afterFile i c).memory.WellFormed := by
  unfold afterFile
  cases s.files[i]? with
  | some f => exact c.backed_run hs
  | none => exact hs

theorem wellFormed_step (hs : s.memory.WellFormed) (c : Call) :
    (s.step c).memory.WellFormed := by
  cases c with
  | openFile p o => exact wellFormed_afterOpening ((atomic_openFile p o).wellFormed hs)
  | tempFile draws dir stem =>
    have htemp := wellFormed_tempFile hs draws dir stem
    rw [step]
    exact wellFormed_afterOpening htemp
  | createDirAll p mode => exact (atomic_createDirAll p mode).wellFormed hs
  | symlink target link => exact (atomic_symlink target link).wellFormed hs
  | rename source target => exact (atomic_rename source target).wellFormed hs
  | remove p => exact (atomic_remove p).wellFormed hs
  | stat p => exact hs
  | lstat p => exact hs
  | readDir p => exact hs
  | readlink p => exact hs
  | toFile i c => exact wellFormed_afterFile hs i c

theorem wellFormed_foldl (hs : s.memory.WellFormed) (calls : List Call) :
    (calls.foldl step s).memory.WellFormed := by
  induction calls generalizing s with
  | nil => exact hs
  | cons c calls ih => exact ih (wellFormed_step hs c)

theorem wellFormed_run (calls : List Call) : (run calls).memory.WellFormed :=
  wellFormed_foldl wellFormed_fresh calls

end Session

section Represented

variable {m : Memory} {k : Key}

theorem WellFormed.nodup_paths (h : m.WellFormed) :
    (m.index.entries.map (·.key.path)).Nodup := by
  rw [List.Nodup, List.pairwise_map]
  apply List.Pairwise.imp _ h.sorted
  intro e e' hlt heq
  rw [Path.ofNames_injective heq] at hlt
  exact List.lt_irrefl _ hlt

theorem WellFormed.nodup_numbers (h : m.WellFormed) :
    (m.index.entries.map (·.number)).Nodup := by
  rw [List.Nodup, List.pairwise_map]
  apply List.Pairwise.imp_of_mem _ h.sorted
  intro e e' he he' hlt heq
  have hfind := Index.find?_of_mem h.sorted he
  have hfind' := Index.find?_of_mem h.sorted he'
  rw [heq] at hfind
  rw [h.number_unique hfind hfind'] at hlt
  exact List.lt_irrefl _ hlt

/-- The numbers of the index are those of the slots that hold a node. -/
theorem WellFormed.number_iff (h : m.WellFormed) (i : Nat) :
    (∃ e ∈ m.index.entries, e.number = i) ↔ ∃ n, m.nodes.get? i = some n := by
  constructor
  · rintro ⟨e, he, rfl⟩
    exact h.stored (Index.find?_of_mem h.sorted he)
  · rintro ⟨n, hn⟩
    obtain ⟨k, hfind⟩ := h.placed hn
    exact ⟨_, (Index.find?_eq_some_iff h.sorted).1 hfind, rfl⟩

theorem WellFormed.not_hasDescendants (h : m.WellFormed) {n : Node} (hnode : m.nodeAt k = some n)
    (hdir : n.isDir = false) : m.hasDescendants k = false := by
  rw [Bool.eq_false_iff]
  intro hbelow
  obtain ⟨n', hn', hdir'⟩ := h.isDir_of_hasDescendants hbelow
  rw [hnode] at hn'
  cases hn'
  rw [hdir] at hdir'
  cases hdir'

end Represented

/-- After any calls, whether they succeed or fail, the top has number zero and is a
directory; the places are absolute and clean, each is stored once, and their
numbers are those of the occupied slots, each used once; every place above a stored
one is stored as a directory, so that nothing lies below a file or a link and no
directory is only implied. -/
theorem run_represented (calls : List Call) :
    let m := (Session.run calls).memory
    (m.index.find? [] = some 0 ∧ ∃ n, m.nodes.get? 0 = some n ∧ n.isDir = true) ∧
    (∀ e ∈ m.index.entries, e.key.path.isAbsolute = true ∧ e.key.path.clean = e.key.path) ∧
    (m.index.entries.map (·.key.path)).Nodup ∧
    (m.index.entries.map (·.number)).Nodup ∧
    (∀ i, (∃ e ∈ m.index.entries, e.number = i) ↔ ∃ n, m.nodes.get? i = some n) ∧
    (∀ e ∈ m.index.entries, ∀ a, a <+: e.key → a ≠ e.key →
      ∃ n, m.nodeAt a = some n ∧ n.isDir = true) ∧
    (∀ k n, m.nodeAt k = some n → n.isDir = false → m.hasDescendants k = false) ∧
    ∀ k, m.hasDescendants k = true → ∃ n, m.nodeAt k = some n ∧ n.isDir = true := by
  intro m
  have h : m.WellFormed := Session.wellFormed_run calls
  refine ⟨h.top, ?_, h.nodup_paths, h.nodup_numbers, h.number_iff, ?_, ?_, ?_⟩
  · intro e _
    exact ⟨Path.isAbsolute_ofNames e.key, Path.clean_ofNames e.key⟩
  · intro e he
    exact h.parented (Index.find?_of_mem h.sorted he)
  · intro k n hnode hdir
    exact h.not_hasDescendants hnode hdir
  · intro k hbelow
    exact h.isDir_of_hasDescendants hbelow

section Ensured

variable {m : Memory} {k : Key} {p : Path} {followLast : Bool}

/-- The directories above a place that a path leads to can always be created. -/
theorem ensureParent_ok (h : m.WellFormed) (hk : m.resolve p followLast = .ok k) (perm : UInt32) :
    (ensureDirs k.parent perm m).1 = .ok () := by
  by_cases hne : k = []
  · obtain ⟨m', hrun, _⟩ := ensureDirs_eq h (k := k.parent) (hne ▸ h.enterable_top) perm
    rw [hrun]
  · obtain ⟨m', hrun, _⟩ := ensureParent_eq h (passable_of_resolve h hk) hne perm
    rw [hrun]

/-- They can also be created once the place has been cleared. -/
theorem ensureParent_prune_ok (h : m.WellFormed) (hk : m.resolve p followLast = .ok k)
    (hne : k ≠ []) (perm : UInt32) : (ensureDirs k.parent perm (m.prune k)).1 = .ok () := by
  have hpass : (m.prune k).Passable k := (passable_of_resolve h hk).prune h
  obtain ⟨m', hrun, _⟩ := ensureParent_eq (h.prune hne) hpass hne perm
  rw [hrun]

theorem ensureDirs_ok (h : m.WellFormed) (hk : m.resolve p followLast = .ok k)
    (hdir : ∀ n, m.nodeAt k = some n → n.isDir = true) (perm : UInt32) :
    (ensureDirs k perm m).1 = .ok () := by
  obtain ⟨m', hrun, _⟩ := ensureDirs_eq h ((passable_of_resolve h hk).enterable hdir) perm
  rw [hrun]

end Ensured

/-- After any calls, an operation that fails leaves everything as it was. Where a
path leads, the missing directories can be created: above a new entry, above the
target of a rename, which may have been dropped before, and at a place that is free
or a directory. -/
theorem run_atomic (calls : List Call) :
    let m := (Session.run calls).memory
    (∀ p o e m', fileSystem.openFile p o m = (.error e, m') → m' = m) ∧
    (∀ p mode e m', fileSystem.createDirAll p mode m = (.error e, m') → m' = m) ∧
    (∀ target link e m', fileSystem.symlink target link m = (.error e, m') → m' = m) ∧
    (∀ source target e m', fileSystem.rename source target m = (.error e, m') → m' = m) ∧
    (∀ p e m', fileSystem.remove p m = (.error e, m') → m' = m) ∧
    (∀ p followLast k, m.resolve p followLast = .ok k →
      (ensureDirs k.parent defaultDirMode m).1 = .ok ()) ∧
    (∀ p k, m.resolve p false = .ok k → k ≠ [] →
      (ensureDirs k.parent defaultDirMode (m.prune k)).1 = .ok ()) ∧
    ∀ p k mode, m.resolve p true = .ok k → (∀ n, m.nodeAt k = some n → n.isDir = true) →
      (ensureDirs k (mode &&& permissionMask) m).1 = .ok () := by
  intro m
  have h : m.WellFormed := Session.wellFormed_run calls
  refine ⟨?_, ?_, ?_, ?_, ?_, ?_, ?_, ?_⟩
  · intro p o e m' hrun
    exact (atomic_openFile p o).eq_of_error h hrun
  · intro p mode e m' hrun
    exact (atomic_createDirAll p mode).eq_of_error h hrun
  · intro target link e m' hrun
    exact (atomic_symlink target link).eq_of_error h hrun
  · intro source target e m' hrun
    exact (atomic_rename source target).eq_of_error h hrun
  · intro p e m' hrun
    exact (atomic_remove p).eq_of_error h hrun
  · intro p followLast k hk
    exact ensureParent_ok h hk _
  · intro p k hk hne
    exact ensureParent_prune_ok h hk hne _
  · intro p k mode hk hdir
    exact ensureDirs_ok h hk hdir _

end ConfinedFs.Memory
