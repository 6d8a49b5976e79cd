import ConfinedFs.Host.Directories
import ConfinedFs.Operations
import ConfinedFs.Os.Canonical
import ConfinedFs.Os.File

/-!
The files of the host below a directory. Paths are cleaned before they are put
below the root, so that `..` does not climb above it, but the system follows
links wherever they lead.
-/

namespace ConfinedFs

open ConfinedFs.Os

/-- The canonical path of the directory the filesystem is rooted at. -/
structure Host where
  root : Path
  deriving DecidableEq

namespace Host

variable {α : Type}

/-- A call of the system as an operation of a filesystem. -/
def call (x : Call α) : Action FileError Tree α := x.mapError FileError.ofErrno

/-- A question to the system as an operation of a filesystem. -/
def ask (f : Tree → Except Errno α) : Action FileError Tree α := call (Action.query f)

theorem ask_apply (f : Tree → Except Errno α) (t : Tree) :
    ask f t = ((f t).mapError FileError.ofErrno, t) :=
  Action.mapError_apply FileError.ofErrno (Action.query f) t

/-- The whole host. -/
def whole : Host := ⟨Path.top⟩

/-- The host below an existing directory. -/
def withRoot (p : Path) : Action FileError Tree Host := do
  let root ← ask (Tree.canonical · p)
  if !(← Action.look (isDir · root)) then throw .baseNotDirectory
  return ⟨root⟩

/-- The path of the host that a path of the filesystem stands for. -/
def place (h : Host) (p : Path) : Path := h.root.join p.fromTop

/-- The permissions the system is asked for where none are given. -/
def defaultDirMode : UInt32 := 0o777

/-- Creates the missing directories above a path of the host. -/
def ensureAbove (p : Path) : Action FileError Tree Unit :=
  call (ensureDirs p.names.dropLast defaultDirMode)

/-- The system's flags for an open request. Whatever may create or empty a file
is opened for writing, and a file that has to be new is not emptied. -/
def openFlags (o : OpenOptions) : OpenFlags where
  read := o.readable
  write := o.writable || o.creates || o.truncate
  append := o.append
  create := o.creates
  exclusive := o.createNew
  truncate := o.truncate && !o.createNew
  mode := o.mode

def openFile (h : Host) (p : Path) (o : OpenOptions) :
    Action FileError Tree (OpenFile FileHandle) := do
  let full := h.place p
  if o.creates then ensureAbove full
  let flags := openFlags o
  let d ← call do
    let (place, strict) ← Action.query (Tree.resolve · full flags.lastLink)
    Call.openAt flags place strict
  return { handle := ⟨some d⟩, path := p }

def stat (h : Host) (p : Path) : Action FileError Tree Metadata := do
  let s ← ask fun t => do t.report (← t.find (h.place p) .follow)
  return s.metadata p

def lstat (h : Host) (p : Path) : Action FileError Tree Metadata := do
  let s ← ask fun t => do t.report (← t.find (h.place p) .keep)
  return s.metadata p

/-- Moves an entry. Neither path may hold a zero, whatever is wrong with the other
one. -/
def rename (h : Host) (source target : Path) : Action FileError Tree Unit := do
  let source := h.place source
  let target := h.place target
  ensureAbove target
  call do
    Action.ofExcept (Tree.checkZero source.bytes)
    Action.ofExcept (Tree.checkZero target.bytes)
    let (a, _) ← Action.query (Tree.resolve · source .keep)
    let (b, _) ← Action.query (Tree.resolve · target .keep)
    Call.rename a b

def remove (h : Host) (p : Path) : Action FileError Tree Unit := do
  let full := h.place p
  if full.same h.root then throw .baseDirRemove
  let s ← ask fun t => do t.report (← t.find full .keep)
  call do
    let (place, _) ← Action.query (Tree.resolve · full .keep)
    if s.isDir then Call.rmdir place else Call.unlink place

def readDir (h : Host) (p : Path) : Action FileError Tree Listing := do
  let parent := p.fromTop
  let found ← ask fun t => do t.listing t.reportAt (← t.findDir (h.place p))
  return ⟨found.map fun e =>
    { path := parent.push ⟨e.1.bytes⟩, metadata := .ok (e.2.metadata ⟨e.1.bytes⟩) }⟩

def createDirAll (h : Host) (p : Path) (mode : UInt32) : Action FileError Tree Unit :=
  call (ensureDirs (h.place p).names mode)

/-- Creates a link. What is wrong with the target is found before the link's own
path is looked at. -/
def symlink (h : Host) (target link : Path) : Action FileError Tree Unit := do
  let full := h.place link
  ensureAbove full
  call do
    Action.ofExcept (Tree.checkZero target.bytes)
    Action.ofExcept (Tree.checkZero full.bytes)
    Call.checkTarget target
    let (place, _) ← Action.query (Tree.resolve · full .keep)
    Call.symlink target place

def readlink (h : Host) (p : Path) : Action FileError Tree Path :=
  ask fun t => do
    let (place, _) ← t.resolve (h.place p) .keep
    t.readlinkAt place

/-- The basic operations of the host. -/
def bareFileSystem (h : Host) : BareFileSystem Tree FileHandle where
  openFile := h.openFile
  stat := h.stat
  rename := h.rename
  remove := h.remove

/-- The host below a directory as a filesystem. -/
def fileSystem (h : Host) : FileSystem Tree FileHandle where
  toBareFileSystem := h.bareFileSystem
  tempFile draws dir stem := do
    call (ensureDirs (h.place dir).names defaultDirMode)
    h.bareFileSystem.unusedFile draws dir stem
  readDir := h.readDir
  createDirAll := h.createDirAll
  lstat := h.lstat
  symlink := h.symlink
  readlink := h.readlink
  root := h.root
  depth t := t.nodes.length

end Host

end ConfinedFs
