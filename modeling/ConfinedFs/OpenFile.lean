import ConfinedFs.Action
import ConfinedFs.Metadata
import ConfinedFs.Text.Quoted

/-!
Open files. A handle reads and writes at its own position; a filesystem that
wraps another one hands out the other's handle under the caller's name.
-/

namespace ConfinedFs

/-- Where a position is to be moved. -/
inductive SeekTarget where
  | start (offset : Nat)
  | fromEnd (delta : Int)
  | fromCurrent (delta : Int)
  deriving DecidableEq

/-- Positions in a file are below this bound. -/
def positionBound : Nat := 18446744073709551616

/-- What a handle `H` on a file in a state `σ` can do. Every operation may
change the handle as well as the state. -/
class Device (σ : Type) (H : outParam Type) where
  /-- At most so many bytes at the position, which moves past them. There are none
  only at the end of the file. -/
  read : Nat → Action IoError (H × σ) Bytes
  /-- Everything from the position to the end, to which the position moves. -/
  readRest : Action IoError (H × σ) Bytes
  /-- Writes at the position, which moves past what was written. The answer is how
  many of the bytes these were, counted from the first one on. -/
  write : Bytes → Action IoError (H × σ) Nat
  flush : Action IoError (H × σ) Unit
  seek : SeekTarget → Action IoError (H × σ) Nat
  /-- At most so many bytes at an offset; the position stays. -/
  readAt : Nat → Nat → Action FileError (H × σ) Bytes
  /-- Writes at an offset; the position stays. -/
  writeAt : Bytes → Nat → Action FileError (H × σ) Nat
  truncate : Nat → Action FileError (H × σ) Unit
  /-- What is known about the file, asked about under the given path. -/
  metadata : Path → Action FileError (H × σ) Metadata
  lock : Action FileError (H × σ) Unit
  unlock : Action FileError (H × σ) Unit
  close : Action FileError (H × σ) Unit

/-- A handle with the path it was opened under, and the names that wrapping
filesystems have put over it, outermost first. -/
structure OpenFile (H : Type) where
  handle : H
  path : Path
  aliases : List Path := []
  deriving DecidableEq

namespace OpenFile

variable {σ H K ε α : Type}

/-- The path the caller knows the file by. -/
def name (f : OpenFile H) : Path := f.aliases.headD f.path

/-- The same file under another name. -/
def withName (f : OpenFile H) (p : Path) : OpenFile H := { f with aliases := p :: f.aliases }

/-- The same file with another handle. -/
def withHandle (f : OpenFile H) (h : K) : OpenFile K := ⟨h, f.path, f.aliases⟩

/-- The diagnostic text of a file: the handle's own text inside one layer for
each name put over it. -/
def describe (text : H → Path → String) (f : OpenFile H) : String :=
  f.aliases.foldr (fun p inner =>
    "NamedFile \x7b inner: " ++ inner ++ ", name: " ++ Text.quoted p.bytes ++ " \x7d")
    (text f.handle f.path)

/-- The handle of a file and the state below it, as a part of the file and the
state. -/
def device : Part (OpenFile H × σ) (H × σ) where
  get s := (s.1.handle, s.2)
  set t s := (s.1.withHandle t.1, t.2)

section

variable [Device σ H]

def read (n : Nat) : Action IoError (OpenFile H × σ) Bytes := (Device.read n).within device

def write (data : Bytes) : Action IoError (OpenFile H × σ) Nat := (Device.write data).within device

def flush : Action IoError (OpenFile H × σ) Unit := (Device.flush).within device

def seek (target : SeekTarget) : Action IoError (OpenFile H × σ) Nat :=
  (Device.seek target).within device

/-- The current position. -/
def position : Action IoError (OpenFile H × σ) Nat := seek (.fromCurrent 0)

def readAt (n offset : Nat) : Action FileError (OpenFile H × σ) Bytes :=
  (Device.readAt n offset).within device

def writeAt (data : Bytes) (offset : Nat) : Action FileError (OpenFile H × σ) Nat :=
  (Device.writeAt data offset).within device

def truncate (size : Nat) : Action FileError (OpenFile H × σ) Unit :=
  (Device.truncate size).within device

/-- What is known about the file, asked about under its name. -/
def metadata : Action FileError (OpenFile H × σ) Metadata := fun s =>
  (Device.metadata s.1.name).within device s

def size : Action FileError (OpenFile H × σ) Nat := do
  return (← metadata).len

def lock : Action FileError (OpenFile H × σ) Unit := (Device.lock).within device

def unlock : Action FileError (OpenFile H × σ) Unit := (Device.unlock).within device

def close : Action FileError (OpenFile H × σ) Unit := (Device.close).within device

/-- Reads until there are so many bytes, or nothing comes any more, with at most so
many calls. -/
def readWithin : Nat → Nat → Action IoError (OpenFile H × σ) Bytes
  | 0, _ => pure []
  | calls + 1, n =>
    if n = 0 then pure []
    else do
      let found ← read n
      if found.isEmpty then return []
      return found ++ (← readWithin calls (n - found.length))

/-- Exactly `n` bytes. If the file ends before, the position is left at its
end. Nothing is read for `n = 0`. -/
def readExact (n : Nat) : Action IoError (OpenFile H × σ) Bytes := do
  let data ← readWithin n n
  if data.length < n then throw (.custom .unexpectedEof "failed to fill whole buffer")
  return data

/-- Everything from the position to the end. -/
def readToEnd : Action IoError (OpenFile H × σ) Bytes := (Device.readRest).within device

/-- Everything from the position to the end, as text. -/
def readToString : Action IoError (OpenFile H × σ) String := do
  match Utf8.text? (← readToEnd) with
  | some text => return text
  | none => throw (.custom .invalidData "stream did not contain valid UTF-8")

/-- Writes until nothing is left, with at most so many calls. -/
def writeWithin : Nat → Bytes → Action IoError (OpenFile H × σ) Unit
  | 0, _ => pure ()
  | calls + 1, data =>
    if data.isEmpty then pure ()
    else do
      let count ← write data
      if count = 0 then throw (.custom .writeZero "failed to write whole buffer")
      writeWithin calls (data.drop count)

theorem writeWithin_nil (calls : Nat) :
    (writeWithin calls [] : Action IoError (OpenFile H × σ) Unit) = pure () := by
  cases calls <;> rfl

/-- Writes all of the data. Nothing is written for empty data. -/
def writeAll (data : Bytes) : Action IoError (OpenFile H × σ) Unit := writeWithin data.length data

end

/-- The operation on a file that is nobody else's: the file is dropped
afterwards. -/
def thenDrop (f : OpenFile H) (x : Action ε (OpenFile H × σ) α) : Action ε σ α := fun s =>
  match x (f, s) with
  | (r, _, s') => (r, s')

end OpenFile

end ConfinedFs
