import ConfinedFs.Host.FileSystem
import ConfinedFs.Rooted.Walk

/-!
The operations on a directory that is held open. Every path is walked inside of
the directory first, and the system is then asked about one name in one
directory.
-/

namespace ConfinedFs.Root

open ConfinedFs.Os

variable {α : Type}

/-- An operation on the tree of the system. -/
abbrev Work (α : Type) := Action FileError Tree α

/-- The place at a location. -/
def placeOf (l : Endpoint) : Work Place := (Action.ofExcept l.place).mapError FileError.ofErrno

/-- Opens the directory at a path of the host, under its canonical path. -/
def openPath (p : Path) : Work Root := do
  let path ← Host.ask (Tree.canonical · p)
  return ⟨← Host.ask (Tree.findDir · path), path⟩

/-- What the system says about a location. -/
def statEndpoint (l : Endpoint) : Work Stat := do
  let place ← placeOf l
  Host.ask (Tree.statAt · place)

def stat (r : Root) (p : Path) : Work Stat := do
  statEndpoint (← Action.query (r.walk · p true))

/-- Like `stat`, but a link in the last place is described and not followed. -/
def lstat (r : Root) (p : Path) : Work Stat := do
  statEndpoint (← Action.query (r.walk · p false))

/-- The system's flags for an open request. -/
def openFlags (o : OpenOptions) : OpenFlags where
  read := o.readable
  write := o.writable || o.truncate
  append := o.append
  create := o.creates
  exclusive := o.createNew
  truncate := o.truncate
  mode := o.mode

/-- Opens a file. Links are followed inside of the root. A directory that was
reached without a name is asked for by the name `.` in itself. -/
def openFile (r : Root) (p : Path) (o : OpenOptions) : Work FileHandle := do
  let l ← Action.query (r.walk · p true)
  if l.name.isNone then Host.call (Call.demand .search l.dir)
  let place ← placeOf l
  return ⟨some (← Host.call (Call.openAt (openFlags o) place false))⟩

/-- Creates a directory. -/
def mkdir (r : Root) (p : Path) (mode : UInt32) : Work Unit := do
  let l ← Action.query (r.walk · p false)
  if l.name.isNone then throw .alreadyExists
  let place ← placeOf l
  Host.call (Call.mkdir place mode)

/-- Creates those of the paths, taken in order, that are missing. A file in the
place of the last one is an existing entry, in the place of another one it is
not a directory. -/
def ensureEach (r : Root) (mode : UInt32) : List Path → Work Unit
  | [] => pure ()
  | p :: rest => do
    match ← (r.stat p).outcome with
    | .ok s =>
      if s.isDir then ensureEach r mode rest
      else if rest.isEmpty then throw .alreadyExists
      else throw .baseNotDirectory
    | .error .entityNotFound =>
      match ← (r.mkdir p mode).outcome with
      | .ok () => ensureEach r mode rest
      | .error .alreadyExists =>
        if (← r.stat p).isDir then ensureEach r mode rest else throw .alreadyExists
      | .error e => throw e
    | .error e => throw e

/-- The paths made of the first components of a path, from the shortest to the
path itself. A leading `.` does not count. -/
def stages (p : Path) : List Path :=
  let cs := p.components.filter (· ≠ .current)
  (List.range cs.length).map fun i => Path.ofComponents (cs.take (i + 1))

/-- Creates a directory and every missing directory on the way. -/
def ensureDirs (r : Root) (p : Path) (mode : UInt32) : Work Unit := ensureEach r mode (stages p)

/-- Removes a file, a link or an empty directory. -/
def remove (r : Root) (p : Path) : Work Unit := do
  let l ← Action.query (r.walk · p false)
  let _ ← Action.ofExcept (l.entry .baseDirRemove)
  let place ← placeOf l
  let s ← Host.ask (Tree.statAt · place)
  Host.call (if s.isDir then Call.rmdir place else Call.unlink place)

/-- Removes everything in a directory, at most so many levels down. Links are
removed and not followed. -/
def clearDir : Nat → NodeId → Work Unit
  | 0, _ => throw .tooManySymlinks
  | levels + 1, dir => do
    (← Host.ask (Tree.names · dir)).forM fun n => do
      let place : Place := .entry dir n
      let s ← Host.ask (Tree.statAt · place)
      if s.isDir then
        clearDir levels (← Host.ask (Tree.openDirAt · place))
        Host.call (Call.rmdir place)
      else Host.call (Call.unlink place)

/-- Removes an entry and everything below it. A missing entry is no error. -/
def removeAll (r : Root) (p : Path) : Work Unit := do
  let l ← Action.query (r.walk · p false)
  let (dir, n) ← Action.ofExcept (l.entry .baseDirRemove)
  match ← Action.query (statIn · dir n) with
  | none => return ()
  | some s =>
    let place ← placeOf l
    if s.isDir then
      let levels ← Action.look (·.nodes.length)
      clearDir levels (← Host.ask (Tree.openDirAt · place))
      Host.call (Call.rmdir place)
    else Host.call (Call.unlink place)

/-- Moves an entry. -/
def rename (r : Root) (source target : Path) : Work Unit := do
  let a ← Action.query (r.walk · source false)
  let b ← Action.query (r.walk · target false)
  let _ ← Action.ofExcept (a.entry .baseDirRename)
  let _ ← Action.ofExcept (b.entry .baseDirRename)
  let a ← placeOf a
  let b ← placeOf b
  Host.call (Call.rename a b)

/-- Creates a link. Its target is kept as it is. -/
def symlink (r : Root) (target link : Path) : Work Unit := do
  let l ← Action.query (r.walk · link false)
  if l.name.isNone then throw .alreadyExists
  let place ← placeOf l
  Host.call (Call.symlink target place)

def readlink (r : Root) (p : Path) : Work Path := do
  let l ← Action.query (r.walk · p false)
  if l.name.isNone then throw .invalidInput
  let place ← placeOf l
  Host.ask (Tree.readlinkAt · place)

/-- The directory at a location. -/
def openDir (l : Endpoint) : Work NodeId := do
  let place ← placeOf l
  Host.ask (Tree.openDirAt · place)

/-- The entries of a directory by name. Links are described and not followed. -/
def readDir (r : Root) (p : Path) : Work (List (Name × Stat)) := do
  let dir ← openDir (← Action.query (r.walk · p true))
  Host.ask fun t => t.listing t.statAt dir

/-- The directory at a path as a root of its own. -/
def openRoot (r : Root) (p : Path) : Work Root := do
  let l ← Action.query (r.walk · p true)
  return ⟨← openDir l, r.path.push l.path⟩

end ConfinedFs.Root
