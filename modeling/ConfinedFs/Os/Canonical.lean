import ConfinedFs.Os.Lookup

/-!
The canonical path of what a path leads to: the names of real directories that
lead there from the top, without links, `.` and `..`. The names are collected on
the way, and each path made of them is shown to the system to learn whether it is
a link. So `.` and `..` ask for no rights, and only the paths that are shown have
to be short enough.
-/

namespace ConfinedFs.Os

open ConfinedFs.Bytes

/-- Does the rest of a path, field by field, ask for a directory before it? It
does at its end, if that is empty or `.`, and at a `..` before the next name. -/
def asksForDirectory : List Bytes → Bool
  | [] => false
  | field :: rest =>
    match Move.ofField? field with
    | none | some .stay => rest.isEmpty || asksForDirectory rest
    | some .up => true
    | some (.down _) => false

namespace Tree

/-- A node with the names that lead to it from the top, the last one first. -/
abbrev Spot := NodeId × List Name

/-- The path of a spot. -/
def spotPath (s : Spot) : Path := Path.ofNames s.2.reverse

/-- Takes the fields of a path from a spot on. At a link the rest is handed over
to `jump`. -/
def canonicalAdvance (t : Tree) (jump : List Bytes → Spot → Except Errno Spot) :
    List Bytes → Spot → Except Errno Spot
  | [], s => .ok s
  | field :: rest, (i, above) =>
    match Move.ofField? field with
    | none | some .stay => canonicalAdvance t jump rest (i, above)
    | some .up =>
      match t.dir? i with
      | some d => canonicalAdvance t jump rest (d.parent, above.tail)
      | none => .error .notDirectory
    | some (.down n) => do
      checkLength (spotPath (i, n :: above)).bytes
      let child ← t.lookup i n
      match t.link? child with
      | some target =>
        jump (fields slash target.bytes ++ rest)
          (if target.isAbsolute then (top, []) else (i, above))
      | none =>
        if asksForDirectory rest && !t.isDir child then throw .notDirectory
        canonicalAdvance t jump rest (child, n :: above)

/-- Takes the fields of a path and follows at most the given number of links. -/
def canonicalWithin (t : Tree) : Nat → List Bytes → Spot → Except Errno Spot
  | 0 => canonicalAdvance t fun _ _ => .error .loop
  | links + 1 => canonicalAdvance t (canonicalWithin t links)

/-- The canonical path of what a path leads to from the top. It has to exist. -/
def canonical (t : Tree) (p : Path) : Except Errno Path := do
  checkZero p.bytes
  if p.isEmpty then throw .noEntry
  return spotPath (← canonicalWithin t maxLinks (fields slash p.bytes) (top, []))

end Tree

end ConfinedFs.Os
