import ConfinedFs.Error.Errno
import ConfinedFs.Path.Basic
import ConfinedFs.Text.Utf8

/-!
Errors of filesystem operations and errors of byte streams, and the way from
one to the other. A filesystem error that has passed through a stream comes
back as it was.
-/

namespace ConfinedFs

/-- Why a filesystem operation failed. -/
inductive FileError where
  /-- The file or directory could not be found. -/
  | entityNotFound
  /-- There is an entry already. -/
  | alreadyExists
  /-- Something on the way to an entry is not a directory. -/
  | baseNotDirectory
  /-- A file was expected. -/
  | notAFile
  /-- The directory still has entries. -/
  | directoryNotEmpty
  /-- The filesystem accepts no changes. -/
  | readOnly
  /-- The filesystem does not offer the operation. -/
  | unsupported
  /-- A path leads out of a jail. -/
  | crossedBoundary
  /-- A path leads out of a root directory. -/
  | pathEscapesParent (path : Path)
  /-- The base directory cannot be renamed. -/
  | baseDirRename
  /-- The base directory cannot be removed. -/
  | baseDirRemove
  /-- The handle has been closed. -/
  | fileClosed
  /-- Too many symbolic links were followed. -/
  | tooManySymlinks
  /-- No unused name for a temporary file was found. -/
  | tempFileExhausted
  /-- An entry cannot be moved to another filesystem. -/
  | crossDevice
  /-- An argument makes no sense. -/
  | invalidInput
  /-- The caller may not do this. -/
  | permissionDenied
  /-- Any other failure of the system, as it was reported. -/
  | io (kind : ErrorKind) (code : Option Int) (message : String)
  deriving DecidableEq, Inhabited

/-- Why an operation on a stream of bytes failed. -/
inductive IoError where
  /-- The system reported a number. -/
  | system (errno : Errno)
  /-- Only the kind of failure is known. -/
  | bare (kind : ErrorKind)
  /-- A kind with a text of its own. -/
  | custom (kind : ErrorKind) (message : String)
  /-- A filesystem error on its way through a stream. -/
  | filesystem (error : FileError)
  deriving DecidableEq, Inhabited

namespace FileError

/-- The text shown for an error. -/
def message : FileError → String
  | entityNotFound => "entity not found"
  | alreadyExists => "file exists"
  | baseNotDirectory => "not a directory"
  | notAFile => "not a file"
  | directoryNotEmpty => "directory not empty"
  | readOnly => "read-only filesystem"
  | unsupported => "feature not supported"
  | crossedBoundary => "chroot boundary crossed"
  | pathEscapesParent path => "path escapes from parent: " ++ Utf8.display path.bytes
  | baseDirRename => "base dir cannot be renamed"
  | baseDirRemove => "base dir cannot be removed"
  | fileClosed => "file already closed"
  | tooManySymlinks => "too many levels of symbolic links"
  | tempFileExhausted => "temporary file names exhausted"
  | crossDevice => "cross-device link"
  | invalidInput => "invalid input"
  | permissionDenied => "permission denied"
  | io _ _ message => message

/-- The kind a stream reports for a filesystem error. -/
def streamKind : FileError → ErrorKind
  | entityNotFound => .notFound
  | alreadyExists => .alreadyExists
  | baseNotDirectory => .notADirectory
  | notAFile => .isADirectory
  | directoryNotEmpty => .directoryNotEmpty
  | readOnly => .readOnlyFilesystem
  | unsupported => .unsupported
  | permissionDenied | crossedBoundary | pathEscapesParent _ | baseDirRename | baseDirRemove =>
    .permissionDenied
  | invalidInput => .invalidInput
  | io kind _ _ => kind
  | fileClosed | tooManySymlinks | tempFileExhausted | crossDevice => .other

/-- The filesystem errors that stand for a kind by themselves. -/
def ofKind? : ErrorKind → Option FileError
  | .notFound => some entityNotFound
  | .alreadyExists => some alreadyExists
  | .permissionDenied => some permissionDenied
  | .invalidInput => some invalidInput
  | .unsupported => some unsupported
  | .notADirectory => some baseNotDirectory
  | .isADirectory => some notAFile
  | .directoryNotEmpty => some directoryNotEmpty
  | .readOnlyFilesystem => some readOnly
  | _ => none

/-- The filesystem errors that stand for a number whatever its kind. -/
def ofNumber? : Int → Option FileError
  | 18 => some crossDevice
  | 20 => some baseNotDirectory
  | 21 => some notAFile
  | 30 => some readOnly
  | 39 => some directoryNotEmpty
  | 40 => some tooManySymlinks
  | 95 => some unsupported
  | _ => none

/-- The filesystem error for a number of the operating system: the one that
stands for the number, else the one that stands for its kind, else the report
itself. -/
def ofErrno (e : Errno) : FileError :=
  match ofNumber? e.number with
  | some error => error
  | none => (ofKind? e.kind).getD (.io e.kind (some e.number) e.message)

/-- The filesystem error for a stream error. -/
def ofIo : IoError → FileError
  | .system e => ofErrno e
  | .bare kind => (ofKind? kind).getD (.io kind none kind.description)
  | .custom kind message => (ofKind? kind).getD (.io kind none message)
  | .filesystem error => error

end FileError

namespace IoError

/-- The kind of failure. -/
def kind : IoError → ErrorKind
  | system e => e.kind
  | bare kind => kind
  | custom kind _ => kind
  | filesystem error => error.streamKind

/-- The text shown for an error. -/
def message : IoError → String
  | system e => e.message
  | bare kind => kind.description
  | custom _ message => message
  | filesystem error => error.message

end IoError

end ConfinedFs
