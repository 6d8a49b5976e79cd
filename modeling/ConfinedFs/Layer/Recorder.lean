import ConfinedFs.FileSystem

/-!
A filesystem that keeps a log of what it is asked to do and does it.
-/

namespace ConfinedFs

/-- One request to a filesystem. -/
inductive Request where
  | openFile (p : Path)
  | stat (p : Path)
  | lstat (p : Path)
  | rename (source target : Path)
  | remove (p : Path)
  | tempFile (dir : Path) (stem : Bytes)
  | readDir (p : Path)
  | createDirAll (p : Path)
  | symlink (target link : Path)
  | readlink (p : Path)
  | chroot (p : Path)
  deriving DecidableEq

namespace Request

/-- The name of what is asked for. -/
def label : Request → String
  | openFile _ => "open_file"
  | stat _ => "stat"
  | lstat _ => "lstat"
  | rename _ _ => "rename"
  | remove _ => "remove"
  | tempFile _ _ => "temp_file"
  | readDir _ => "read_dir"
  | createDirAll _ => "create_dir_all"
  | symlink _ _ => "symlink"
  | readlink _ => "readlink"
  | chroot _ => "chroot"

/-- The byte strings a request comes with, in order. -/
def arguments : Request → List Bytes
  | openFile p | stat p | lstat p | remove p | readDir p | createDirAll p | readlink p
  | chroot p => [p.bytes]
  | rename a b | symlink a b => [a.bytes, b.bytes]
  | tempFile dir stem => [dir.bytes, stem]

end Request

namespace FileSystem

variable {σ H α : Type}

/-- Writes a request to the log and then does what was asked for. -/
def logging (record : Request → σ → σ) (r : Request) (x : Action FileError σ α) :
    Action FileError σ α := do
  Action.update (record r)
  x

/-- The same filesystem with a log of requests. -/
def recorded (record : Request → σ → σ) (fs : FileSystem σ H) : FileSystem σ H where
  openFile p o := logging record (.openFile p) (fs.openFile p o)
  stat p := logging record (.stat p) (fs.stat p)
  rename a b := logging record (.rename a b) (fs.rename a b)
  remove p := logging record (.remove p) (fs.remove p)
  join := fs.join
  capabilities := fs.capabilities
  tempFile draws dir stem := logging record (.tempFile dir stem) (fs.tempFile draws dir stem)
  readDir p := logging record (.readDir p) (fs.readDir p)
  createDirAll p mode := logging record (.createDirAll p) (fs.createDirAll p mode)
  lstat p := logging record (.lstat p) (fs.lstat p)
  symlink target link := logging record (.symlink target link) (fs.symlink target link)
  readlink p := logging record (.readlink p) (fs.readlink p)
  root := fs.root
  depth := fs.depth

end FileSystem

end ConfinedFs
