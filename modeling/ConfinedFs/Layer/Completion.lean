import ConfinedFs.Operations

/-!
A full filesystem made of a bare one. There are no directories to list and no
links; temporary files are made by opening new files.
-/

namespace ConfinedFs.BareFileSystem

variable {σ H : Type}

/-- The full filesystem. What the bare one cannot do is not supported, and as
it has no links, nothing is hidden behind one. -/
def complete (bare : BareFileSystem σ H) : FileSystem σ H where
  toBareFileSystem := bare
  tempFile draws dir stem := bare.unusedFile draws dir stem
  readDir _ := throw .unsupported
  createDirAll _ _ := throw .unsupported
  lstat := bare.stat
  symlink _ _ := throw .unsupported
  readlink _ := throw .unsupported
  root := Path.top
  depth _ := 0

/-- A bare filesystem in which every name is taken: whatever is asked about is
a private directory, nothing can be opened and nothing changes. -/
def crowded : BareFileSystem σ H where
  openFile _ _ := throw .alreadyExists
  stat p := return { name := p.bytes, fileType := .ofDir, perm := 0o700, len := 0 }
  rename _ _ := throw .readOnly
  remove _ := throw .readOnly

end ConfinedFs.BareFileSystem
