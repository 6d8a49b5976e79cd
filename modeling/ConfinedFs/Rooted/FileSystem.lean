import ConfinedFs.Rooted.Root

/-!
The files of the host confined to a directory by the operating system. Every
path is looked up inside of an open directory, so that no link can lead out of
it. The directory is opened anew for each operation, or once for all.
-/

namespace ConfinedFs

open ConfinedFs.Os

/-- The path of the base directory and, if it is kept open, the open
directory. -/
structure Confined where
  base : Path
  kept : Option Root
  deriving DecidableEq

namespace Confined

open ConfinedFs.Root (Work)

variable {α : Type}

/-- Opens the base anew for each operation. Nothing is checked before the
first one. -/
def perCall (base : Path) : Confined := ⟨base.clean, none⟩

/-- Keeps an open directory. -/
def shared (r : Root) : Confined := ⟨r.path, some r⟩

/-- The open base directory. -/
def root (c : Confined) : Work Root :=
  match c.kept with
  | some r => pure r
  | none => Root.openPath c.base

/-- A path relative to the base. An absolute path has to name the base or
something below it. -/
def relative (c : Confined) (p : Path) : Except FileError Path :=
  if p.isAbsolute then
    match c.base.remainder? p with
    | some rel => .ok rel
    | none => .error (.pathEscapesParent p)
  else if p.isEmpty then .ok Path.here
  else .ok p

/-- Creates the missing directories above a relative path. -/
def ensureAbove (r : Root) (rel : Path) : Work Unit :=
  if rel.dirName.isHere then pure ()
  else r.ensureDirs rel.dirName FileSystem.defaultDirMode

def openFile (c : Confined) (p : Path) (o : OpenOptions) : Work (OpenFile FileHandle) := do
  let rel ← Action.ofExcept (c.relative p)
  let r ← c.root
  if o.creates then ensureAbove r rel
  return { handle := ← r.openFile rel o, path := p }

def stat (c : Confined) (p : Path) : Work Metadata := do
  let rel ← Action.ofExcept (c.relative p)
  return (← (← c.root).stat rel).metadata p

def lstat (c : Confined) (p : Path) : Work Metadata := do
  let rel ← Action.ofExcept (c.relative p)
  return (← (← c.root).lstat rel).metadata p

def rename (c : Confined) (source target : Path) : Work Unit := do
  let source ← Action.ofExcept (c.relative source)
  let target ← Action.ofExcept (c.relative target)
  if source.isHere || target.isHere then throw .baseDirRename
  let r ← c.root
  ensureAbove r target
  r.rename source target

def remove (c : Confined) (p : Path) : Work Unit := do
  let rel ← Action.ofExcept (c.relative p)
  if rel.isHere then throw .baseDirRemove
  (← c.root).remove rel

/-- Removes an entry and everything below it. A missing entry is no error, and
the base itself cannot be removed. -/
def removeAll (c : Confined) (p : Path) : Work Unit := do
  let rel ← Action.ofExcept (c.relative p)
  if rel.isHere then throw .baseDirRemove
  (← c.root).removeAll rel

def readDir (c : Confined) (p : Path) : Work Listing := do
  let rel ← Action.ofExcept (c.relative p)
  let found ← (← c.root).readDir rel
  return ⟨found.map fun e =>
    let path := p.push ⟨e.1.bytes⟩
    { path, metadata := .ok (e.2.metadata path) }⟩

def createDirAll (c : Confined) (p : Path) (mode : UInt32) : Work Unit := do
  let rel ← Action.ofExcept (c.relative p)
  (← c.root).ensureDirs rel mode

def symlink (c : Confined) (target link : Path) : Work Unit := do
  let rel ← Action.ofExcept (c.relative link)
  let r ← c.root
  ensureAbove r rel
  r.symlink target rel

def readlink (c : Confined) (p : Path) : Work Path := do
  let rel ← Action.ofExcept (c.relative p)
  (← c.root).readlink rel

/-- The directory at a path, created if it is missing, as a base of its own. It
is kept open if this base is. -/
def narrow (c : Confined) (p : Path) : Work Confined := do
  let rel ← Action.ofExcept (c.relative p)
  let r ← c.root
  match ← (r.ensureDirs rel FileSystem.defaultDirMode).outcome with
  | .ok () => pure ()
  | .error .alreadyExists => throw .baseNotDirectory
  | .error e => throw e
  if !(← r.stat rel).isDir then throw .baseNotDirectory
  let sub ← r.openRoot rel
  return if c.kept.isSome then shared sub else perCall sub.path

/-- The basic operations of a confined host. -/
def bareFileSystem (c : Confined) : BareFileSystem Tree FileHandle where
  openFile := c.openFile
  stat := c.stat
  rename := c.rename
  remove := c.remove

/-- The confined host as a filesystem. -/
def fileSystem (c : Confined) : FileSystem Tree FileHandle where
  toBareFileSystem := c.bareFileSystem
  tempFile draws dir stem := do
    let rel ← Action.ofExcept (c.relative dir)
    (← c.root).ensureDirs rel FileSystem.defaultDirMode
    c.bareFileSystem.unusedFile draws dir stem
  readDir := c.readDir
  createDirAll := c.createDirAll
  lstat := c.lstat
  symlink := c.symlink
  readlink := c.readlink
  root := c.base
  depth t := t.nodes.length

end Confined

end ConfinedFs
