import ConfinedFs.OpenFile
import ConfinedFs.Os.Calls

/-!
Open files of the operating system. A descriptor refers to a node, so it goes
on working after the node has been moved or has lost its last entry.
-/

namespace ConfinedFs.Os

/-- What an open call asks for. -/
structure OpenFlags where
  read : Bool
  write : Bool
  append : Bool
  create : Bool
  exclusive : Bool
  truncate : Bool
  mode : UInt32
  deriving DecidableEq

/-- What an open call does about a link in the last position. One that insists
on creating the file takes a link for an entry that is there. -/
def OpenFlags.lastLink (f : OpenFlags) : LastLink :=
  if f.exclusive then .keep else if f.create then .create else .follow

/-- An open node with the position of the next read or write. -/
structure Descriptor where
  node : NodeId
  readable : Bool
  writable : Bool
  append : Bool
  offset : Nat := 0
  deriving DecidableEq

namespace Call

/-- The descriptor of an open node. -/
def descriptor (f : OpenFlags) (i : NodeId) : Descriptor where
  node := i
  readable := f.read
  writable := f.write
  append := f.append

/-- Takes away the data of a file. -/
def truncate (i : NodeId) : Call Unit := Action.update fun t =>
  match t.node? i with
  | some (.file perm _) => t.put i (.file perm.changed [])
  | _ => t

/-- The descriptor of a node, if the permissions give what the call asks for and there
is something behind the node. -/
def granted (f : OpenFlags) (i : NodeId) : Call Descriptor := do
  if f.read then demand .read i
  if f.write || f.truncate then demand .write i
  if ← Action.look (Tree.isSpecial · i) then throw .noDevice
  if f.truncate then truncate i
  return descriptor f i

/-- Opens a node that exists. A directory can only be opened for reading, and a
link not at all. -/
def openNode (f : OpenFlags) (i : NodeId) : Call Descriptor := do
  if f.create && f.exclusive then throw .alreadyExists
  match ← Action.look (Tree.node? · i) with
  | some (.directory _) => if f.create || f.write || f.truncate then throw .isDirectory
  | some (.symlink _ _) => throw .loop
  | _ => pure ()
  granted f i

/-- Opens the node at a place, or creates a file there. If the path can only mean
a directory, no file is created and none is opened. -/
def openAt (f : OpenFlags) (place : Place) (strict : Bool) : Call Descriptor := do
  if strict && f.create then throw .isDirectory
  match ← Action.query (Tree.occupant · place), place with
  | some i, _ =>
    if strict && !(← Action.look (Tree.isDir · i)) then throw .notDirectory
    openNode f i
  | none, .entry dir n =>
    if !f.create then throw .noEntry
    let perm ← Action.look (Tree.filePerm · dir f.mode)
    return descriptor f (← addEntry dir n (.file perm []))
  | none, .directory _ => throw .noEntry

end Call

namespace Descriptor

/-- The last position in a file. -/
def maxOffset : Nat := 9223372036854775807

/-- The data of the file a descriptor is open on. -/
def fileData (s : Descriptor × Tree) : Except Errno Bytes :=
  match s.2.node? s.1.node with
  | some (.file _ data) => .ok data
  | _ => .error .isDirectory

/-- The tree with other data in the file a descriptor is open on. -/
def putData (data : Bytes) (s : Descriptor × Tree) : Descriptor × Tree :=
  match s.2.node? s.1.node with
  | some (.file perm _) => (s.1, s.2.put s.1.node (.file perm.changed data))
  | _ => s

def moveTo (offset : Nat) (s : Descriptor × Tree) : Descriptor × Tree :=
  ({ s.1 with offset }, s.2)

/-- No access may start or end behind the last position. -/
def checkRange (offset count : Nat) : Except Errno Unit :=
  if offset + count > maxOffset then .error .invalid else .ok ()

/-- The data, of which so many bytes are to be read at an offset. -/
def readableData (offset count : Nat) (s : Descriptor × Tree) : Except Errno Bytes := do
  if !s.1.readable then throw .badDescriptor
  checkRange offset count
  fileData s

/-- The data, in which so many bytes are to be written at an offset. -/
def writableData (offset count : Nat) (s : Descriptor × Tree) : Except Errno Bytes := do
  if !s.1.writable then throw .badDescriptor
  checkRange offset count
  fileData s

/-- How many bytes one call moves at the most. -/
def maxTransfer : Nat := 2147479552

def read (n : Nat) : Action Errno (Descriptor × Tree) Bytes := do
  let offset ← Action.look (·.1.offset)
  let data ← Action.query (readableData offset n)
  let found := Bytes.slice offset (min n maxTransfer) data
  Action.update (moveTo (offset + found.length))
  return found

/-- How many bytes the system is asked for at the least when everything to the
end is read. -/
def leastRequest : Nat := 32

/-- Reads on until nothing comes any more. -/
def readRest : Action Errno (Descriptor × Tree) Bytes := do
  let offset ← Action.look (·.1.offset)
  let data ← Action.query (readableData offset leastRequest)
  let found := data.drop offset
  Action.update (moveTo (offset + found.length))
  return found

/-- Writes at the position, or at the end if the descriptor appends; the range
is checked at the position all the same. Writing nothing changes nothing. -/
def write (bytes : Bytes) : Action Errno (Descriptor × Tree) Nat := do
  let position ← Action.look (·.1.offset)
  let data ← Action.query (writableData position bytes.length)
  if bytes.isEmpty then return 0
  let offset ← Action.look fun s => if s.1.append then data.length else position
  let taken := bytes.take maxTransfer
  Action.update fun s =>
    moveTo (offset + taken.length) (putData (Bytes.overwrite offset taken data) s)
  return taken.length

/-- Reads at an offset; the position stays. -/
def pread (n offset : Nat) : Action Errno (Descriptor × Tree) Bytes := do
  if offset > maxOffset then throw .invalid
  let data ← Action.query (readableData offset n)
  return Bytes.slice offset (min n maxTransfer) data

/-- Reads at an offset until there are so many bytes, or nothing comes any more, with
at most so many calls. -/
def preadWithin : Nat → Nat → Nat → Action Errno (Descriptor × Tree) Bytes
  | 0, _, _ => pure []
  | calls + 1, n, offset =>
    if n = 0 then pure []
    else do
      let found ← pread n offset
      if found.isEmpty then return []
      return found ++ (← preadWithin calls (n - found.length) (offset + found.length))

/-- Reads so many bytes at an offset, or to the end. Every call but the last one brings
a byte at the least. -/
def preadAll (n offset : Nat) : Action Errno (Descriptor × Tree) Bytes := preadWithin n n offset

/-- Writes at an offset, or at the end if the descriptor appends; the position
stays. -/
def pwrite (bytes : Bytes) (offset : Nat) : Action Errno (Descriptor × Tree) Nat := do
  if offset > maxOffset then throw .invalid
  let data ← Action.query (writableData offset bytes.length)
  let start ← Action.look fun s => if s.1.append then data.length else offset
  let taken := bytes.take maxTransfer
  Action.update (putData (Bytes.overwrite start taken data))
  return taken.length

/-- Writes at an offset until nothing is left, with at most so many calls. -/
def pwriteWithin : Nat → Bytes → Nat → Action Errno (Descriptor × Tree) Unit
  | 0, _, _ => pure ()
  | calls + 1, bytes, offset =>
    if bytes.isEmpty then pure ()
    else do
      let count ← pwrite bytes offset
      pwriteWithin calls (bytes.drop count) (offset + count)

/-- Writes all bytes at an offset. Every call takes one byte at the least. -/
def pwriteAll (bytes : Bytes) (offset : Nat) : Action Errno (Descriptor × Tree) Unit :=
  pwriteWithin bytes.length bytes offset

/-- Moves the position, which has to stay in range. -/
def seek (target : SeekTarget) : Action Errno (Descriptor × Tree) Nat := do
  let position : Int ← Action.look fun s =>
    match target with
    | .start offset => offset
    | .fromCurrent delta => s.1.offset + delta
    | .fromEnd delta =>
      match fileData s with
      | .ok data => data.length + delta
      | .error _ => delta
  if position < 0 ∨ position > maxOffset then throw .invalid
  Action.update (moveTo position.toNat)
  return position.toNat

/-- Cuts the file or pads it with zeros. Only a file that is open for writing
can be resized. -/
def resize (size : Nat) : Action Errno (Descriptor × Tree) Unit := do
  if size > maxOffset then throw .invalid
  let data ← Action.query fun s =>
    if s.1.writable then fileData s else .error .invalid
  Action.update (putData (Bytes.resize size data))

def report : Action Errno (Descriptor × Tree) Report := Action.query fun s => s.2.report s.1.node

end Descriptor

end ConfinedFs.Os
