import ConfinedFs.Capability
import ConfinedFs.OpenFile
import ConfinedFs.OpenOptions

/-!
What a filesystem offers. A bare filesystem has the basic operations only; a
full one also has temporary files, directories and symbolic links.
-/

namespace ConfinedFs

/-- The nine digits and other choices of temporary names come from a stream of
random words. -/
abbrev Draws := Nat → UInt32

/-- The basic operations of a filesystem in a state `σ` that hands out handles
`H`. -/
structure BareFileSystem (σ H : Type) where
  openFile : Path → OpenOptions → Action FileError σ (OpenFile H)
  stat : Path → Action FileError σ Metadata
  rename : Path → Path → Action FileError σ Unit
  /-- Removes a file or an empty directory. -/
  remove : Path → Action FileError σ Unit
  join : Path → Path → Path := Path.join
  capabilities : Capability := .all

/-- A filesystem with every operation. -/
structure FileSystem (σ H : Type) extends BareFileSystem σ H where
  /-- Creates a file with an unused name in a directory. The name starts with
  the given bytes. -/
  tempFile : Draws → Path → Bytes → Action FileError σ (OpenFile H)
  readDir : Path → Action FileError σ Listing
  createDirAll : Path → UInt32 → Action FileError σ Unit
  /-- Like `stat`, but a link in the last place is described and not followed. -/
  lstat : Path → Action FileError σ Metadata
  /-- Creates a link at the second path that holds the first one. -/
  symlink : Path → Path → Action FileError σ Unit
  readlink : Path → Action FileError σ Path
  /-- The base the filesystem is rooted at. -/
  root : Path
  /-- No chain of directories in the state is longer than this. -/
  depth : σ → Nat

namespace BareFileSystem

variable {σ τ H K : Type}

/-- Opens a file for reading. -/
def openRead (fs : BareFileSystem σ H) (p : Path) : Action FileError σ (OpenFile H) :=
  fs.openFile p .reading

/-- Creates or empties a file and opens it for reading and writing. -/
def create (fs : BareFileSystem σ H) (p : Path) : Action FileError σ (OpenFile H) :=
  fs.openFile p .creating

/-- Does the filesystem support all of the features? -/
def supports (fs : BareFileSystem σ H) (features : Capability) : Bool :=
  fs.capabilities.contains features

end BareFileSystem

namespace FileSystem

variable {σ τ H K : Type}

/-- A filesystem on a part of a larger state, with its handles among others. -/
def within (part : Part σ τ) (wrap : H → K) (fs : FileSystem τ H) : FileSystem σ K where
  openFile p o := do
    let f ← (fs.openFile p o).within part
    return f.withHandle (wrap f.handle)
  stat p := (fs.stat p).within part
  rename a b := (fs.rename a b).within part
  remove p := (fs.remove p).within part
  join := fs.join
  capabilities := fs.capabilities
  tempFile draws dir stem := do
    let f ← (fs.tempFile draws dir stem).within part
    return f.withHandle (wrap f.handle)
  readDir p := (fs.readDir p).within part
  createDirAll p mode := (fs.createDirAll p mode).within part
  lstat p := (fs.lstat p).within part
  symlink target link := (fs.symlink target link).within part
  readlink p := (fs.readlink p).within part
  root := fs.root
  depth s := fs.depth (part.get s)

end FileSystem

end ConfinedFs
