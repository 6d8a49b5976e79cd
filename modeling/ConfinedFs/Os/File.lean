import ConfinedFs.Os.Descriptor

/-!
Handles on files of the operating system. Closing a handle gives up its
descriptor; after that every operation fails.
-/

namespace ConfinedFs.Os

/-- A handle on an open file, until it is closed. -/
structure FileHandle where
  descriptor : Option Descriptor
  deriving DecidableEq

namespace FileHandle

variable {α : Type}

/-- An operation on the descriptor of a handle. -/
def onDescriptor (x : Action Errno (Descriptor × Tree) α) :
    Action IoError (FileHandle × Tree) α := fun s =>
  match s.1.descriptor with
  | none => (.error (.filesystem .fileClosed), s)
  | some d =>
    match x.mapError .system (d, s.2) with
    | (r, d', t) => (r, ⟨some d'⟩, t)

/-- An operation on the descriptor that is not part of a stream. -/
def control (x : Action Errno (Descriptor × Tree) α) :
    Action FileError (FileHandle × Tree) α :=
  (onDescriptor x).mapError FileError.ofIo

/-- Reading nothing and writing nothing at an offset does not reach the
system, but needs an open handle. -/
instance device : Device Tree FileHandle where
  read n := onDescriptor (Descriptor.read n)
  readRest := onDescriptor Descriptor.readRest
  write bytes := onDescriptor (Descriptor.write bytes)
  flush := onDescriptor (pure ())
  seek target := onDescriptor (Descriptor.seek target)
  readAt n offset := control (Descriptor.preadAll n offset)
  writeAt bytes offset := do
    control (Descriptor.pwriteAll bytes offset)
    return bytes.length
  truncate size := control (Descriptor.resize size)
  metadata p := do return (← control Descriptor.report).metadata p
  lock := control (pure ())
  unlock := control (pure ())
  close := do
    control (pure ())
    Action.update fun s => (⟨none⟩, s.2)

end FileHandle

end ConfinedFs.Os
