import ConfinedFs.Metadata
import ConfinedFs.Os.Lookup

/-!
The calls of the operating system that look at entries, create them, remove
them and move them.
-/

namespace ConfinedFs.Os

/-- What kind of node there is. -/
inductive Kind where
  | directory
  | file
  | symlink
  | special
  deriving DecidableEq

namespace Inode

def kind : Inode → Kind
  | directory _ => .directory
  | file _ _ => .file
  | symlink _ _ => .symlink
  | special _ => .special

/-- The size the system gives for a node. -/
def size : Inode → Nat
  | file _ data => data.length
  | symlink _ target => target.bytes.length
  | _ => 0

end Inode

/-- What the system says about a node, but for times. -/
structure Report where
  kind : Kind
  perm : UInt32
  size : Nat
  deriving DecidableEq

namespace Report

def isDir (s : Report) : Bool := s.kind = .directory

/-- The type of the node. What is special has none. -/
def fileType (s : Report) : FileType :=
  match s.kind with
  | .directory => .ofDir
  | .file => .ofFile
  | .symlink => .ofSymlink
  | .special => {}

/-- What is known about the node, asked about under a path. -/
def metadata (s : Report) (p : Path) : Metadata where
  name := p.baseName.bytes
  fileType := s.fileType
  perm := s.perm
  len := s.size

def ofInode (n : Inode) : Report := ⟨n.kind, n.perm.bits, n.size⟩

end Report

/-- What is kept of a report on an entry of an open directory. -/
structure Stat where
  fileType : FileType
  perm : UInt32
  size : Nat
  deriving DecidableEq

namespace Stat

def isDir (s : Stat) : Bool := s.fileType.dir

def isSymlink (s : Stat) : Bool := s.fileType.symlink

/-- What is known about the node, asked about under a path. -/
def metadata (s : Stat) (p : Path) : Metadata where
  name := p.baseName.bytes
  fileType := s.fileType
  perm := s.perm
  len := s.size

/-- Whatever is neither a directory nor a link counts as a file. -/
def ofReport (s : Report) : Stat where
  fileType :=
    match s.kind with
    | .directory => .ofDir
    | .symlink => .ofSymlink
    | .file | .special => .ofFile
  perm := s.perm
  size := s.size

end Stat

namespace Tree

/-- What the system says about a node. -/
def report (t : Tree) (i : NodeId) : Except Errno Report :=
  match t.node? i with
  | some n => .ok (.ofInode n)
  | none => .error .badDescriptor

/-- What the system says about the node at a place. -/
def reportAt (t : Tree) (place : Place) : Except Errno Report := do t.report (← t.existing place)

/-- What is kept of the system's report on a node. -/
def stat (t : Tree) (i : NodeId) : Except Errno Stat := (t.report i).map .ofReport

/-- What is kept of the system's report on the node at a place. -/
def statAt (t : Tree) (place : Place) : Except Errno Stat := do t.stat (← t.existing place)

/-- The target of the link at a place. -/
def readlinkAt (t : Tree) (place : Place) : Except Errno Path := do
  match t.link? (← t.existing place) with
  | some target => return target
  | none => throw .invalid

/-- The directory at a place, opened to read its entries. Links are not
followed. -/
def openDirAt (t : Tree) (place : Place) : Except Errno NodeId := do
  t.openDir (← t.existing place)

/-- The names in an open directory. -/
def names (t : Tree) (i : NodeId) : Except Errno (List Name) :=
  match t.dir? i with
  | some d => .ok (d.entries.map (·.1))
  | none => .error .notDirectory

/-- The names in an open directory in order, each with what is told about its
place. -/
def listing {α : Type} (t : Tree) (about : Place → Except Errno α) (i : NodeId) :
    Except Errno (List (Name × α)) := do
  ((← t.names i).mergeSort fun a b => !decide (b < a)).mapM fun n => do
    return (n, ← about (.entry i n))

end Tree

/-- An operation of the system on its tree. -/
abbrev Call (α : Type) := Action Errno Tree α

namespace Call

/-- Fails if the permissions of a node do not give an access. -/
def demand (a : Access) (i : NodeId) : Call Unit := Action.query (Tree.demand · a i)

/-- Fails if the entry of a directory for a node may not be taken away. -/
def demandRemoval (dir i : NodeId) : Call Unit := Action.query (Tree.demandRemoval · dir i)

/-- Fails if a directory cannot get one more entry. One that has been removed
gets none. -/
def demandGrowth (dir : NodeId) : Call Unit := do
  if ← Action.look fun t => ((t.dir? dir).map (·.removed)).getD true then throw .noEntry
  demand .write dir

/-- Stores a new node under a name of a directory where there is none. -/
def addEntry (dir : NodeId) (n : Name) (node : Inode) : Call NodeId := do
  demandGrowth dir
  let i ← Action.look (·.nextId dir)
  Action.update fun t =>
    ((t.put i node).modifyDir dir fun d => { d with created := d.created + 1 }).link dir n i
  return i

/-- The free name at a place where something is to be created. -/
def vacancy (place : Place) : Call (NodeId × Name) := do
  match place with
  | .directory _ => throw .alreadyExists
  | .entry dir n =>
    if (← Action.query (Tree.occupant · place)).isSome then throw .alreadyExists
    return (dir, n)

/-- Creates a directory. -/
def mkdir (place : Place) (mode : UInt32) : Call Unit := do
  let (dir, n) ← vacancy place
  let perm ← Action.look (Tree.dirPerm · dir mode)
  let _ ← addEntry dir n (.directory { perm, parent := dir })

/-- May a path be the target of a link? -/
def checkTarget (target : Path) : Call Unit := do
  Action.ofExcept (Tree.checkPath target.bytes)
  if target.isEmpty then throw .noEntry

/-- Creates a link. Its target is kept as it is, but may not be empty. -/
def symlink (target : Path) (place : Place) : Call Unit := do
  checkTarget target
  let (dir, n) ← vacancy place
  let _ ← addEntry dir n (.symlink .owner target)

/-- Removes a file or a link. -/
def unlink (place : Place) : Call Unit := do
  match place with
  | .directory _ => throw .isDirectory
  | .entry dir n =>
    let i ← Action.query (Tree.existing · place)
    demandRemoval dir i
    if ← Action.look (Tree.isDir · i) then throw .isDirectory
    Action.update (Tree.unlink · dir n)

/-- Fails if a node is a directory with entries. -/
def demandEmpty (i : NodeId) : Call Unit := do
  let entries ← Action.look fun t => ((t.dir? i).map (·.entries)).getD []
  if !entries.isEmpty then throw .notEmpty

/-- Removes an empty directory. -/
def rmdir (place : Place) : Call Unit := do
  match place with
  | .directory _ => throw .busy
  | .entry dir n =>
    let i ← Action.query (Tree.existing · place)
    demandRemoval dir i
    if !(← Action.look (Tree.isDir · i)) then throw .notDirectory
    demandEmpty i
    Action.update fun t => (t.unlink dir n).retire i

/-- Moves an entry. A file replaces a file or a link, a directory replaces an
empty directory. A directory cannot be moved below itself, and nothing can take
the place of a directory it lies in. A directory that gets another one above it
is changed itself. -/
def rename (source target : Place) : Call Unit := do
  match source, target with
  | .entry dir n, .entry newDir newName =>
    let i ← Action.query (Tree.existing · source)
    let old ← Action.query (Tree.occupant · target)
    if ← Action.look (Tree.isAbove · i newDir) then throw .invalid
    if let some j := old then
      if ← Action.look (Tree.isAbove · j dir) then throw .notEmpty
      if i = j then return ()
    demandRemoval dir i
    let isDir ← Action.look (Tree.isDir · i)
    match old with
    | some j =>
      demandRemoval newDir j
      let replacesDir ← Action.look (Tree.isDir · j)
      if isDir && !replacesDir then throw .notDirectory
      if replacesDir && !isDir then throw .isDirectory
    | none => demandGrowth newDir
    if isDir && newDir ≠ dir then demand .write i
    if let some j := old then demandEmpty j
    Action.update fun t =>
      let moved := ((t.unlink dir n).link newDir newName i).modifyDir i fun d =>
        { d with parent := newDir }
      match old with
      | some j => moved.retire j
      | none => moved
  | _, _ => throw .busy

end Call

end ConfinedFs.Os
