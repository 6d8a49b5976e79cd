import ConfinedFs.Memory.Basic

/-!
From a path to the place it designates. Links on the way are followed, the one
in the last position only on request, and no more than a fixed number of them.
-/

namespace ConfinedFs

/-- One move of a walk through a tree. -/
inductive Step where
  | up
  | down (n : Name)
  deriving DecidableEq

namespace Step

def ofComponent? : Component → Option Step
  | .parent => some up
  | .name n => some (down n)
  | .root | .current => none

end Step

/-- The moves of a path. Where they start is not part of them. -/
def Path.steps (p : Path) : List Step := p.components.filterMap Step.ofComponent?

/-- How many links are followed for one path. -/
def linkLimit : Nat := 40

namespace Memory

/-- Makes the moves from a place on. At a link that is to be followed the walk
is handed over to `jump`, with the link's own moves put before the remaining
ones. What does not exist is passed as it is, a file only in last position. -/
def advance (m : Memory) (followLast : Bool) (jump : List Step → Key → Except FileError Key) :
    List Step → Key → Except FileError Key
  | [], k => .ok k
  | .up :: rest, k => advance m followLast jump rest k.parent
  | .down n :: rest, k =>
    match m.nodeAt (k ++ [n]) with
    | some ⟨.symlink, c⟩ =>
      if followLast || !rest.isEmpty then
        let target : Path := ⟨(m.content c).data⟩
        jump (target.steps ++ rest) (if target.isAbsolute then [] else k)
      else advance m followLast jump rest (k ++ [n])
    | some ⟨.file, _⟩ =>
      if rest.isEmpty then advance m followLast jump rest (k ++ [n])
      else .error .baseNotDirectory
    | _ => advance m followLast jump rest (k ++ [n])

/-- Makes the moves and follows at most the given number of links. -/
def resolveWithin (m : Memory) (followLast : Bool) :
    Nat → List Step → Key → Except FileError Key
  | 0 => advance m followLast fun _ _ => .error .tooManySymlinks
  | links + 1 => advance m followLast (resolveWithin m followLast links)

/-- The place a path designates. It need not exist. -/
def resolve (m : Memory) (p : Path) (followLast : Bool) : Except FileError Key :=
  resolveWithin m followLast linkLimit p.steps []

end Memory

end ConfinedFs
