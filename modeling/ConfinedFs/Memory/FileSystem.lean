import ConfinedFs.Memory.Change
import ConfinedFs.Memory.Handle
import ConfinedFs.Operations

/-!
The filesystem in memory.
-/

namespace ConfinedFs.Memory

/-- Opens or creates a file. Its content is cleared first if the request says
so. -/
def openFile (p : Path) (o : OpenOptions) : Action FileError Memory (OpenFile Handle) := do
  let cell ← if o.creates then fileFor p o else Action.query (fileAt · p o)
  if o.truncate then
    Action.update fun m => m.modifyCell cell fun c => { c with data := [] }
  let handle ← Action.look fun m => Handle.ofCell m cell o
  return { handle, path := p }

def stat (m : Memory) (p : Path) : Except FileError Metadata := do
  m.describe (← m.resolve p true) p.baseName.bytes

def lstat (m : Memory) (p : Path) : Except FileError Metadata := do
  m.describe (← m.resolve p false) p.baseName.bytes

def readDir (m : Memory) (p : Path) : Except FileError Listing := do
  let k ← m.resolve p true
  match m.nodeAt k with
  | some n => if !n.isDir then throw .baseNotDirectory
  | none => if !m.hasDescendants k then throw .entityNotFound
  let parent := p.fromTop
  return ⟨(m.children k).map fun n =>
    { path := parent.push ⟨n.bytes⟩, metadata := m.describe (k ++ [n]) n.bytes }⟩

def readlink (m : Memory) (p : Path) : Except FileError Path := do
  let k ← m.resolve p false
  match m.nodeAt k with
  | some ⟨.symlink, c⟩ => return ⟨(m.content c).data⟩
  | some _ => throw .invalidInput
  | none => if m.hasDescendants k then throw .invalidInput else throw .entityNotFound

/-- Everything but locks. -/
def capabilities : Capability :=
  [Capability.write, .read, .readAndWrite, .seek, .truncate].foldl .union ⟨0⟩

/-- The basic operations of the filesystem in memory. -/
def bareFileSystem : BareFileSystem Memory Handle where
  openFile := openFile
  stat p := Action.query (stat · p)
  rename := rename
  remove := remove
  capabilities := capabilities

/-- The filesystem in memory. -/
def fileSystem : FileSystem Memory Handle where
  toBareFileSystem := bareFileSystem
  tempFile draws dir stem := bareFileSystem.unusedFile draws dir stem
  readDir p := Action.query (readDir · p)
  createDirAll := createDirAll
  lstat p := Action.query (lstat · p)
  symlink := symlink
  readlink p := Action.query (readlink · p)
  root := Path.top
  depth m := m.index.entries.length

end ConfinedFs.Memory
