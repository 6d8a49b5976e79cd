import ConfinedFs.Memory.Basic
import ConfinedFs.OpenFile
import ConfinedFs.OpenOptions

/-!
Handles on files in memory. A handle belongs to the cell of the node it was
opened on. Handles on one cell share its content and have positions and access
flags of their own.
-/

namespace ConfinedFs.Memory

/-- An open file in memory. -/
structure Handle where
  cell : CellId
  cursor : Nat
  readable : Bool
  writable : Bool
  append : Bool
  closed : Bool := false
  deriving DecidableEq

namespace Handle

/-- A handle on a cell. One that appends starts at the end. -/
def ofCell (m : Memory) (c : CellId) (o : OpenOptions) : Handle where
  cell := c
  cursor := if o.append then (m.content c).data.length else 0
  readable := o.readable
  writable := o.writable
  append := o.append

/-- The data of the file a handle is open on. -/
def data (s : Handle × Memory) : Bytes := (s.2.content s.1.cell).data

/-- The handle at another position. -/
def moveTo (position : Nat) (s : Handle × Memory) : Handle × Memory :=
  ({ s.1 with cursor := position }, s.2)

/-- The memory with other data in the file the handle is open on. -/
def putData (f : Bytes → Bytes) (s : Handle × Memory) : Handle × Memory :=
  (s.1, s.2.modifyCell s.1.cell fun c => { c with data := f c.data })

/-- A handle that has been closed can do nothing. -/
def requireOpen : Action FileError (Handle × Memory) Unit :=
  Action.query fun s => if s.1.closed then .error .fileClosed else .ok ()

def requireReadable : Action FileError (Handle × Memory) Unit := do
  requireOpen
  Action.query fun s => if s.1.readable then .ok () else .error .permissionDenied

def requireWritable : Action FileError (Handle × Memory) Unit := do
  requireOpen
  Action.query fun s => if s.1.writable then .ok () else .error .permissionDenied

/-- Writes at an offset, or at the end if there is none, and tells where the
data went. The end of what is written has to be a valid position. -/
def store (bytes : Bytes) (offset : Option Nat) : Action FileError (Handle × Memory) Nat := do
  let start := offset.getD (← Action.look (data ·)).length
  if start + bytes.length ≥ positionBound then throw .invalidInput
  Action.update (putData (Bytes.overwrite start bytes))
  return start

def read (n : Nat) : Action FileError (Handle × Memory) Bytes := do
  requireReadable
  let found ← Action.look fun s => Bytes.slice s.1.cursor n (data s)
  Action.update fun s => moveTo (s.1.cursor + found.length) s
  return found

def readRest : Action FileError (Handle × Memory) Bytes := do
  requireReadable
  let found ← Action.look fun s => (data s).drop s.1.cursor
  Action.update fun s => moveTo (s.1.cursor + found.length) s
  return found

def write (bytes : Bytes) : Action FileError (Handle × Memory) Nat := do
  requireWritable
  let offset ← Action.look fun s => if s.1.append then none else some s.1.cursor
  let start ← store bytes offset
  Action.update (moveTo (start + bytes.length))
  return bytes.length

/-- The position a target stands for in a file of the given length. -/
def targetPosition (cursor length : Nat) : SeekTarget → Int
  | .start offset => offset
  | .fromEnd delta => length + delta
  | .fromCurrent delta => cursor + delta

def seek (target : SeekTarget) : Action IoError (Handle × Memory) Nat := do
  requireOpen.mapError .filesystem
  let position ← Action.look fun s => targetPosition s.1.cursor (data s).length target
  if position < 0 ∨ position ≥ positionBound then
    throw (.custom .invalidInput "seeking to a negative or overflowing position")
  Action.update (moveTo position.toNat)
  return position.toNat

def readAt (n offset : Nat) : Action FileError (Handle × Memory) Bytes := do
  requireReadable
  Action.look fun s => Bytes.slice offset n (data s)

def writeAt (bytes : Bytes) (offset : Nat) : Action FileError (Handle × Memory) Nat := do
  requireWritable
  let _ ← store bytes (some offset)
  return bytes.length

def truncate (size : Nat) : Action FileError (Handle × Memory) Unit := do
  requireWritable
  Action.update (putData (Bytes.resize size))

def metadata (p : Path) : Action FileError (Handle × Memory) Metadata := do
  requireOpen
  Action.look fun s => (s.2.content s.1.cell).metadata .file p.baseName.bytes

def close : Action FileError (Handle × Memory) Unit := do
  requireOpen
  Action.update fun s => ({ s.1 with closed := true }, s.2)

/-- Files in memory have no locks, so that locking only asks for an open
handle. -/
instance device : Device Memory Handle where
  read n := (read n).mapError .filesystem
  readRest := readRest.mapError .filesystem
  write bytes := (write bytes).mapError .filesystem
  flush := requireOpen.mapError .filesystem
  seek := seek
  readAt := readAt
  writeAt := writeAt
  truncate := truncate
  metadata := metadata
  lock := requireOpen
  unlock := requireOpen
  close := close

/-- The diagnostic text of a handle that was opened under a path. -/
def describe (h : Handle) (p : Path) : String :=
  "FileHandle \x7b name: " ++ Text.quoted p.bytes ++
    s!", cursor: {h.cursor}, readable: {h.readable}, writable: {h.writable}" ++
    s!", append: {h.append}, closed: {h.closed} \x7d"

end Handle

end ConfinedFs.Memory
