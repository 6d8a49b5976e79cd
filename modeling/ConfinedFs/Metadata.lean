import ConfinedFs.Error.Basic
import ConfinedFs.Path.Lexical

/-!
What a filesystem says about an entry, and the listing of a directory.
-/

namespace ConfinedFs

/-- The flags that tell what an entry is. -/
structure FileType where
  dir : Bool := false
  file : Bool := false
  symlink : Bool := false
  deriving DecidableEq, Inhabited

namespace FileType

def ofDir : FileType := { dir := true }

def ofFile : FileType := { file := true }

def ofSymlink : FileType := { symlink := true }

/-- The type as bits of a mode word. A directory comes before a link and a
link before a file if several flags are set. -/
def typeBits (t : FileType) : UInt32 :=
  if t.dir then 0o040000
  else if t.symlink then 0o120000
  else if t.file then 0o100000
  else 0

end FileType

/-- The bits of a mode word that hold permissions. -/
def permissionMask : UInt32 := 0o7777

/-- What is known about an entry. -/
structure Metadata where
  /-- The last component of the path that was asked about. -/
  name : Bytes
  fileType : FileType
  /-- The permissions alone. -/
  perm : UInt32
  len : Nat
  /-- The time of the last change in nanoseconds. Times are left out of the model of
  every filesystem: what a clock would give stands here as zero. -/
  modified : Nat := 0
  deriving DecidableEq, Inhabited

namespace Metadata

def isDir (m : Metadata) : Bool := m.fileType.dir

def isFile (m : Metadata) : Bool := m.fileType.file

def isSymlink (m : Metadata) : Bool := m.fileType.symlink

/-- The permissions together with the type. -/
def mode (m : Metadata) : UInt32 := m.fileType.typeBits ||| (m.perm &&& permissionMask)

/-- The same entry asked about under another path. -/
def named (m : Metadata) (p : Path) : Metadata := { m with name := p.baseName.bytes }

end Metadata

/-- An entry of a directory. -/
structure DirEntry where
  path : Path
  metadata : Except FileError Metadata

namespace DirEntry

/-- The name of the entry, or its whole path if that does not end in a name. -/
def fileName (e : DirEntry) : Bytes := e.path.fileName?.getD e.path.bytes

def fileType (e : DirEntry) : Except FileError FileType := e.metadata.map (·.fileType)

/-- The same entry listed in the directory at `parent`. -/
def listedIn (parent : Path) (e : DirEntry) : DirEntry :=
  { e with path := parent.push ⟨e.fileName⟩ }

end DirEntry

/-- The entries of a directory that have not been taken yet. -/
structure Listing where
  entries : List DirEntry

namespace Listing

def isEmpty (l : Listing) : Bool := l.entries.isEmpty

/-- The next entry and the listing after it. -/
def next? (l : Listing) : Option (DirEntry × Listing) :=
  match l.entries with
  | [] => none
  | e :: rest => some (e, ⟨rest⟩)

end Listing

end ConfinedFs
