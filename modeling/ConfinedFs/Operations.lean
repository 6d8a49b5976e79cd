import ConfinedFs.FileSystem

/-!
Common tasks built from the operations of a filesystem.
-/

namespace ConfinedFs

namespace BareFileSystem

variable {σ H : Type}

/-- Is there anything at the path? -/
def exists? (fs : BareFileSystem σ H) (p : Path) : Action FileError σ Bool := do
  match ← (fs.stat p).outcome with
  | .ok _ => return true
  | .error _ => return false

/-- Is there a directory at the path? -/
def isDir? (fs : BareFileSystem σ H) (p : Path) : Action FileError σ Bool := do
  match ← (fs.stat p).outcome with
  | .ok m => return m.isDir
  | .error _ => return false

/-- Is there a file at the path? -/
def isFile? (fs : BareFileSystem σ H) (p : Path) : Action FileError σ Bool := do
  match ← (fs.stat p).outcome with
  | .ok m => return m.isFile
  | .error _ => return false

/-- How many names are tried for a temporary entry. -/
def temporaryAttempts : Nat := 10000

/-- The name of a temporary entry: the given bytes and nine digits of a random
word. -/
def temporaryName (stem : Bytes) (word : UInt32) : Bytes :=
  let digits := Nat.toDigits 10 (word.toNat % 1000000000)
  stem ++ (List.replicate (9 - digits.length) '0' ++ digits).map fun c => c.toNat.toUInt8

/-- The name that is tried for a temporary entry with one of the random words. -/
def tempCandidate (draws : Draws) (dir : Path) (stem : Bytes) (i : Nat) : Path :=
  dir.join ⟨temporaryName stem (draws i)⟩

/-- Opens the first of the numbered candidates that does not exist yet. -/
def openUnused (fs : BareFileSystem σ H) (candidate : Nat → Path) :
    List Nat → Action FileError σ (OpenFile H)
  | [] => throw .tempFileExhausted
  | i :: rest => do
    match ← (fs.openFile (candidate i) .temporary).outcome with
    | .error .alreadyExists => openUnused fs candidate rest
    | .error e => throw e
    | .ok f => return f

/-- Creates a file with an unused name in `dir`, open for reading and writing. -/
def unusedFile (fs : BareFileSystem σ H) (draws : Draws) (dir : Path) (stem : Bytes) :
    Action FileError σ (OpenFile H) :=
  openUnused fs (tempCandidate draws dir stem) (List.range temporaryAttempts)

variable [Device σ H]

/-- Creates a file if there is none. -/
def touch (fs : BareFileSystem σ H) (p : Path) : Action FileError σ Unit := do
  let f ← fs.openFile p .touching
  f.thenDrop OpenFile.close

/-- Replaces the content of a file. -/
def writeFile (fs : BareFileSystem σ H) (p : Path) (data : Bytes) : Action FileError σ Unit := do
  let f ← fs.openFile p .replacing
  f.thenDrop do
    (OpenFile.writeAll data).mapError FileError.ofIo
    OpenFile.flush.mapError FileError.ofIo
    OpenFile.close

/-- The whole content of a file. -/
def contents (fs : BareFileSystem σ H) (p : Path) : Action FileError σ Bytes := do
  let f ← fs.openRead p
  f.thenDrop do
    let data ← OpenFile.readToEnd.mapError FileError.ofIo
    OpenFile.close
    return data

end BareFileSystem

namespace FileSystem

variable {σ H : Type}

/-- The permissions of a directory that is created on the way to another
entry. -/
def defaultDirMode : UInt32 := 0o755

/-- Creates a directory and its missing parents. -/
def mkdirs (fs : FileSystem σ H) (p : Path) : Action FileError σ Unit :=
  fs.createDirAll p defaultDirMode

/-- Creates a directory at the first of the numbered candidates where nothing
exists. -/
def makeUnused (fs : FileSystem σ H) (candidate : Nat → Path) :
    List Nat → Action FileError σ Path
  | [] => throw .tempFileExhausted
  | i :: rest => do
    let p := candidate i
    if ← fs.exists? p then makeUnused fs candidate rest
    else
      fs.createDirAll p 0o700
      return p

/-- Creates a directory with an unused name in `dir`. -/
def unusedDir (fs : FileSystem σ H) (draws : Draws) (dir : Path) (stem : Bytes) :
    Action FileError σ Path :=
  makeUnused fs (BareFileSystem.tempCandidate draws dir stem)
    (List.range BareFileSystem.temporaryAttempts)

/-- Removes an entry and everything below it, at most `levels` levels down. A
missing entry is no error. Links are removed and not followed. -/
def removeAllWithin (fs : FileSystem σ H) : Nat → Path → Action FileError σ Unit
  | 0, _ => throw .tooManySymlinks
  | levels + 1, p => do
    match ← (fs.lstat p).outcome with
    | .error .entityNotFound => return ()
    | .error e => throw e
    | .ok m =>
      if m.isDir then
        (← fs.readDir p).entries.forM fun e =>
          removeAllWithin fs levels (p.join ⟨e.fileName⟩)
      fs.remove p

/-- Removes an entry and everything below it. Whenever a link has been removed that
the path goes by, the path may lead to another place, with as many levels below it. -/
def removeAll (fs : FileSystem σ H) (p : Path) : Action FileError σ Unit := do
  let depth ← Action.look fs.depth
  removeAllWithin fs ((depth + 1) * (depth + 1)) p

/-- An entry and everything below it in depth first order, at most `levels`
levels down. Links are reported and not followed. -/
def walkWithin (fs : FileSystem σ H) :
    Nat → Path → Metadata → Action FileError σ (List (Path × Metadata))
  | 0, _, _ => throw .tooManySymlinks
  | levels + 1, p, m =>
    if m.isDir then do
      let below ← (← fs.readDir p).entries.mapM fun e => do
        walkWithin fs levels (p.join ⟨e.fileName⟩) (← Action.ofExcept e.metadata)
      return (p, m) :: below.flatten
    else return [(p, m)]

/-- An entry and everything below it, with what is known about each. -/
def walk (fs : FileSystem σ H) (p : Path) : Action FileError σ (List (Path × Metadata)) := do
  let m ← fs.lstat p
  walkWithin fs ((← Action.look fs.depth) + 1) p m

end FileSystem

end ConfinedFs
