/-!
A reader-writer lock that never waits. It is one word: a count of readers, or
the writer's bit alone.
-/

namespace ConfinedFs

/-- The state of a lock. -/
structure Lock where
  word : UInt64
  deriving DecidableEq, Inhabited

/-- A lock that could not be taken where the caller had promised that nobody
holds it. -/
inductive LockConflict where
  | readWhileModified
  | modifiedWhileUsed
  deriving DecidableEq

namespace LockConflict

/-- The text shown for a conflict. -/
def message : LockConflict → String
  | readWhileModified => "single-threaded filesystem read while it is being modified"
  | modifiedWhileUsed => "single-threaded filesystem modified while it is in use"

end LockConflict

namespace Lock

/-- A lock that nobody holds. -/
def free : Lock := ⟨0⟩

/-- The word of a lock held by a writer: its highest bit. -/
def writer : UInt64 := 9223372036854775808

/-- Takes the lock for reading unless a writer holds it. -/
def tryShared (l : Lock) : Option Lock :=
  if l.word &&& writer ≠ 0 then none else some ⟨l.word + 1⟩

/-- Takes the lock for writing unless anybody holds it. -/
def tryExclusive (l : Lock) : Option Lock :=
  if l.word = 0 then some ⟨writer⟩ else none

/-- Takes the lock for reading. -/
def shared (l : Lock) : Except LockConflict Lock :=
  match l.tryShared with
  | some held => .ok held
  | none => .error .readWhileModified

/-- Takes the lock for writing. -/
def exclusive (l : Lock) : Except LockConflict Lock :=
  match l.tryExclusive with
  | some held => .ok held
  | none => .error .modifiedWhileUsed

/-- Gives back the lock of one reader. -/
def releaseShared (l : Lock) : Lock := ⟨l.word - 1⟩

/-- Gives back the lock of the writer. -/
def releaseExclusive (_ : Lock) : Lock := free

end Lock

end ConfinedFs
