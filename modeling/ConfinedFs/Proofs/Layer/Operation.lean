import ConfinedFs.FileSystem

/-!
The operations of a filesystem as values, so that what a layer does to its requests
can be said for all of them at once.
-/

namespace ConfinedFs

/-- A request to a filesystem that hands out handles `H`, with the type of its
answer. -/
inductive Operation (H : Type) : Type → Type where
  | openFile (p : Path) (o : OpenOptions) : Operation H (OpenFile H)
  | stat (p : Path) : Operation H Metadata
  | lstat (p : Path) : Operation H Metadata
  | rename (source target : Path) : Operation H Unit
  | remove (p : Path) : Operation H Unit
  | tempFile (draws : Draws) (dir : Path) (stem : Bytes) : Operation H (OpenFile H)
  | readDir (p : Path) : Operation H Listing
  | createDirAll (p : Path) (mode : UInt32) : Operation H Unit
  | symlink (target link : Path) : Operation H Unit
  | readlink (p : Path) : Operation H Path

variable {σ H α : Type}

/-- The paths that are to be looked up. The target of a link is not one of them. -/
def Operation.paths : Operation H α → List Path
  | openFile p _ | stat p | lstat p | remove p | readDir p | createDirAll p _ | readlink p => [p]
  | tempFile _ dir _ => [dir]
  | rename source target => [source, target]
  | symlink _ link => [link]

/-- The filesystem does what is asked for. -/
def FileSystem.perform (fs : FileSystem σ H) : Operation H α → Action FileError σ α
  | .openFile p o => fs.openFile p o
  | .stat p => fs.stat p
  | .lstat p => fs.lstat p
  | .rename source target => fs.rename source target
  | .remove p => fs.remove p
  | .tempFile draws dir stem => fs.tempFile draws dir stem
  | .readDir p => fs.readDir p
  | .createDirAll p mode => fs.createDirAll p mode
  | .symlink target link => fs.symlink target link
  | .readlink p => fs.readlink p

end ConfinedFs
