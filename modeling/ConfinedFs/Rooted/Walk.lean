import ConfinedFs.Memory.Resolve
import ConfinedFs.Os.Calls

/-!
Looking up paths inside of a directory that is held open. Components are taken
one at a time; `..` never climbs above the directory, and the targets of links
are put in front of the remaining components instead of being followed by the
system. Whatever would lead outside is refused.
-/

namespace ConfinedFs

open ConfinedFs.Os

/-- An open directory that lookups cannot leave, and the path of the host it
was opened under. -/
structure Root where
  dir : NodeId
  path : Path
  deriving DecidableEq

/-- Where a path ends: at a name in a directory, or at the directory itself.
The directory comes with the names that lead to it from the root. -/
structure Endpoint where
  dir : NodeId
  names : List Name
  name : Option Name
  deriving DecidableEq

namespace Endpoint

/-- The path of the location relative to the root. -/
def path (l : Endpoint) : Path := Path.ofComponents ((l.names ++ l.name.toList).map .name)

/-- Does the path end on the root itself? -/
def isRoot (l : Endpoint) : Bool := l.name.isNone && l.names.isEmpty

/-- The entry to act on. A path that ends on the root has none, which is the
given error, and neither has a path that ends on a directory through `..`. -/
def entry (l : Endpoint) (onRoot : FileError) : Except FileError (NodeId × Name) :=
  match l.name with
  | some n => .ok (l.dir, n)
  | none => .error (if l.isRoot then onRoot else .invalidInput)

/-- The place the system is asked about. -/
def place (l : Endpoint) : Except Errno Place :=
  match l.name with
  | some n => Tree.placeIn l.dir n
  | none => .ok (.directory l.dir)

end Endpoint

namespace Root

/-- The directories passed on the way down, the last one first, each with its
name. -/
abbrev Trail := List (Name × NodeId)

/-- The directory a trail has led to. -/
def current (r : Root) (trail : Trail) : NodeId :=
  match trail with
  | [] => r.dir
  | (_, i) :: _ => i

/-- The location at the end of a trail, with or without a name in it. -/
def endpoint (r : Root) (trail : Trail) (name : Option Name) : Endpoint where
  dir := r.current trail
  names := (trail.map Prod.fst).reverse
  name := name

/-- What the system says about a name in a directory; nothing if there is no
entry. -/
def statIn (t : Tree) (dir : NodeId) (n : Name) : Except FileError (Option Stat) :=
  match (Tree.placeIn dir n).bind t.statAt with
  | .ok s => .ok (some s)
  | .error e => if e = .noEntry then .ok none else .error (.ofErrno e)

/-- The target of a link in a directory. -/
def linkIn (t : Tree) (dir : NodeId) (n : Name) : Except FileError Path :=
  ((Tree.placeIn dir n).bind t.readlinkAt).mapError FileError.ofErrno

/-- The directory under a name in a directory. -/
def dirIn (t : Tree) (dir : NodeId) (n : Name) : Except FileError NodeId :=
  ((Tree.placeIn dir n).bind t.openDirAt).mapError FileError.ofErrno

/-- Makes the steps from the end of a trail on. A step up from the root is
refused with `escape`, and so is a link whose absolute target is not below the
root's path. At a link that is to be followed the walk is handed over to `jump`,
if there is one; otherwise too many links have been followed and this one is not
even read. -/
def advance (r : Root) (t : Tree) (escape : FileError) (followLast : Bool)
    (jump : Option (List Step → Trail → Except FileError Endpoint)) :
    List Step → Trail → Except FileError Endpoint
  | [], trail => .ok (r.endpoint trail none)
  | .up :: rest, trail =>
    match trail with
    | [] => .error escape
    | _ :: above => advance r t escape followLast jump rest above
  | .down n :: rest, trail => do
    let dir := r.current trail
    match ← statIn t dir n with
    | none => if rest.isEmpty then .ok (r.endpoint trail (some n)) else .error .entityNotFound
    | some s =>
      if s.isSymlink && (followLast || !rest.isEmpty) then
        match jump with
        | none => .error .tooManySymlinks
        | some jump =>
          let target ← linkIn t dir n
          if target.isAbsolute then
            match r.path.remainder? target with
            | none => .error escape
            | some rel => jump (rel.steps ++ rest) []
          else jump (target.steps ++ rest) trail
      else if rest.isEmpty then .ok (r.endpoint trail (some n))
      else if !s.isDir then .error .baseNotDirectory
      else advance r t escape followLast jump rest ((n, ← dirIn t dir n) :: trail)

/-- Makes the steps and follows at most the given number of links. -/
def walkWithin (r : Root) (t : Tree) (escape : FileError) (followLast : Bool) :
    Nat → List Step → Trail → Except FileError Endpoint
  | 0 => advance r t escape followLast none
  | links + 1 => advance r t escape followLast (some (walkWithin r t escape followLast links))

/-- The location of a path, which has to be relative. The last component is
followed on request. -/
def walk (r : Root) (t : Tree) (p : Path) (followLast : Bool) : Except FileError Endpoint :=
  if p.isAbsolute then .error (.pathEscapesParent p)
  else r.walkWithin t (.pathEscapesParent p) followLast linkLimit p.steps []

end Root

end ConfinedFs
