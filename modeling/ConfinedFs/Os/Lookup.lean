import ConfinedFs.Os.Tree

/-!
How the operating system finds the place a path leads to. Every `.` and `..`
and every name is a move in the stored tree that needs the right to search the
directory it starts from, links on the way are replaced by the moves of their
targets, whoever they belong to, and no more than a fixed number of links is
followed.
-/

namespace ConfinedFs.Os

open ConfinedFs.Bytes

/-- One move of a lookup. -/
inductive Move where
  | stay
  | up
  | down (n : Name)
  deriving DecidableEq

namespace Move

/-- The move that a field between separators stands for. -/
def ofField? (field : Bytes) : Option Move :=
  if field = [dot] then some stay
  else if field = [dot, dot] then some up
  else (Name.ofBytes? field).map down

end Move

/-- The moves of a path. -/
def moves (p : Path) : List Move := (fields slash p.bytes).filterMap Move.ofField?

/-- A path that ends in a separator can only mean a directory. -/
def endsInSlash (p : Path) : Bool := p.bytes.getLast? == some slash

/-- Where a path leads: to a directory that was reached without a name of its
own, or to a name in a directory, whether or not there is such an entry. -/
inductive Place where
  | directory (i : NodeId)
  | entry (dir : NodeId) (n : Name)
  deriving DecidableEq

/-- What is done about a link in the last position of a path. -/
inductive LastLink where
  /-- It is followed only if the path can only mean a directory. -/
  | keep
  /-- It is followed. -/
  | follow
  /-- It is followed, unless the path can only mean a directory: no file can be
  created there. -/
  | create
  deriving DecidableEq

/-- Is a link in the last position followed? The flag tells that the path can
only mean a directory. -/
def LastLink.follows : LastLink → Bool → Bool
  | keep, strict => strict
  | follow, _ => true
  | create, strict => !strict

/-- The longest name of an entry. -/
def maxName : Nat := 255

/-- Paths are shorter than this. -/
def maxPath : Nat := 4096

/-- How many links the system follows for one path. -/
def maxLinks : Nat := 40

namespace Tree

/-- The directory in which a name is to be looked up. -/
def searched (t : Tree) (dir : NodeId) : Except Errno Directory := do
  match t.dir? dir with
  | some d =>
    t.demand .search dir
    return d
  | none => throw .notDirectory

/-- The node a name stands for in a directory. -/
def lookup (t : Tree) (dir : NodeId) (n : Name) : Except Errno NodeId := do
  let d ← t.searched dir
  if d.removed then throw .noEntry
  if n.bytes.length > maxName then throw .nameTooLong
  match d.entries.lookup n with
  | some i => return i
  | none => throw .noEntry

/-- Is an error about a name and not about the directory it was looked up in? Then
the name is a place all the same, and whoever looks there gets the error. -/
def concernsName (e : Errno) : Bool := e = .noEntry || e = .nameTooLong

/-- Makes the moves from a directory on. The flag tells that the path can only
mean a directory. At a link that is to be followed the lookup is handed over to
`jump`. -/
def advance (t : Tree) (last : LastLink)
    (jump : List Move → NodeId → Bool → Except Errno (Place × Bool)) :
    List Move → NodeId → Bool → Except Errno (Place × Bool)
  | [], i, strict => .ok (.directory i, strict)
  | .stay :: rest, i, strict =>
    match t.searched i with
    | .ok _ => advance t last jump rest i strict
    | .error e => .error e
  | .up :: rest, i, strict =>
    match t.searched i with
    | .ok d => advance t last jump rest d.parent strict
    | .error e => .error e
  | .down n :: rest, i, strict =>
    match t.lookup i n with
    | .error e => if rest.isEmpty && concernsName e then .ok (.entry i n, strict) else .error e
    | .ok child =>
      match t.link? child with
      | some target =>
        if last.follows strict || !rest.isEmpty then
          jump (moves target ++ rest) (if target.isAbsolute then top else i)
            (strict || (rest.isEmpty && endsInSlash target))
        else .ok (.entry i n, strict)
      | none =>
        if rest.isEmpty then .ok (.entry i n, strict)
        else advance t last jump rest child strict

/-- Makes the moves and follows at most the given number of links. -/
def resolveWithin (t : Tree) (last : LastLink) :
    Nat → List Move → NodeId → Bool → Except Errno (Place × Bool)
  | 0 => advance t last fun _ _ _ => .error .loop
  | links + 1 => advance t last (resolveWithin t last links)

/-- A byte string that holds a zero cannot be passed to the system. -/
def checkZero (bytes : Bytes) : Except Errno Unit :=
  if bytes.contains 0 then .error .invalid else .ok ()

/-- A byte string that is too long is not taken by the system. -/
def checkLength (bytes : Bytes) : Except Errno Unit :=
  if bytes.length ≥ maxPath then .error .nameTooLong else .ok ()

/-- Is the byte string one that the system takes as a path? -/
def checkPath (bytes : Bytes) : Except Errno Unit := do
  checkZero bytes
  checkLength bytes

/-- The place a path leads to from the top, and whether the path can only mean
a directory. -/
def resolve (t : Tree) (p : Path) (last : LastLink) : Except Errno (Place × Bool) := do
  checkPath p.bytes
  if p.isEmpty then throw .noEntry
  resolveWithin t last maxLinks (moves p) top (endsInSlash p)

/-- The place of a name in a directory that is held open. -/
def placeIn (dir : NodeId) (n : Name) : Except Errno Place := do
  checkPath n.bytes
  return .entry dir n

/-- The node at a place, if there is one. -/
def occupant (t : Tree) : Place → Except Errno (Option NodeId)
  | .directory i => .ok (some i)
  | .entry dir n =>
    match t.lookup dir n with
    | .ok i => .ok (some i)
    | .error e => if e = .noEntry then .ok none else .error e

/-- The node at a place. -/
def existing (t : Tree) (place : Place) : Except Errno NodeId := do
  match ← t.occupant place with
  | some i => return i
  | none => throw .noEntry

/-- The node a path leads to. -/
def find (t : Tree) (p : Path) (last : LastLink) : Except Errno NodeId := do
  let (place, strict) ← t.resolve p last
  let i ← t.existing place
  if strict && !t.isDir i then throw .notDirectory
  return i

/-- A directory, opened to read its entries. -/
def openDir (t : Tree) (i : NodeId) : Except Errno NodeId := do
  if !t.isDir i then throw .notDirectory
  t.demand .read i
  return i

/-- The directory a path leads to, opened to read its entries. -/
def findDir (t : Tree) (p : Path) : Except Errno NodeId := do t.openDir (← t.find p .follow)

end Tree

end ConfinedFs.Os
