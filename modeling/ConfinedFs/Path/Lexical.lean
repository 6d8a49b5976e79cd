import ConfinedFs.Path.Basic

/-!
Paths taken as texts. Nothing here looks at a tree: `..` takes back the
component before it, whatever is stored there.
-/

namespace ConfinedFs.Path

open ConfinedFs.Bytes

/-- The components kept so far, last one first, after one more component. A
name is taken back by a `..` after it; a `..` with no name before it is kept in
a relative path and dropped at the top. -/
def settle (rooted : Bool) (kept : List Component) : Component → List Component
  | .root => kept
  | .current => kept
  | .parent =>
    match kept with
    | .name _ :: rest => rest
    | _ => if rooted then kept else .parent :: kept
  | .name n => .name n :: kept

/-- The components that remain when every `..` has been settled, in order. -/
def settled (p : Path) : List Component :=
  (p.components.foldl (settle p.isAbsolute) []).reverse

/-- The shortest path that is lexically the same. It is `.` if nothing
remains. -/
def clean (p : Path) : Path :=
  if p.isAbsolute then ofComponents (.root :: p.settled)
  else if p.settled.isEmpty then here
  else ofComponents p.settled

/-- `p` below `base`, cleaned. An absolute `p` does not replace `base`. -/
def join (base p : Path) : Path :=
  if base.isEmpty then p.clean
  else if p.isEmpty then base.clean
  else clean ⟨base.bytes ++ slash :: p.bytes⟩

/-- Does the path climb above the place it starts from? -/
def climbsOut (p : Path) : Bool :=
  p.clean.components.head? == some .parent

/-- The path as seen from the top. -/
def fromTop (p : Path) : Path := join top p

/-- The path of `p` relative to `base`, if `p` is lexically `base` or below
it. -/
def remainder? (base p : Path) : Option Path :=
  let whole := p.clean.components
  let start := base.clean.components
  if start.isPrefixOf whole then
    match whole.drop start.length with
    | [] => some here
    | rest => some (ofComponents rest)
  else none

/-- The last element of the cleaned path. -/
def baseName (p : Path) : Path :=
  match p.clean.components.getLast? with
  | some (.name n) => ⟨n.bytes⟩
  | some .root => top
  | some .parent => up
  | _ => here

/-- Everything but the last element of the cleaned path. -/
def dirName (p : Path) : Path :=
  let cleaned := p.clean
  match cleaned.components.getLast? with
  | some (.name _) =>
    match cleaned.components.dropLast with
    | [] => here
    | rest => ofComponents rest
  | some .parent => join cleaned up
  | _ => cleaned

/-- Is the path lexically the place it starts from? -/
def isHere (p : Path) : Bool := p.clean.same here

/-- The names below the top in the absolute form of the path. -/
def names (p : Path) : List Name :=
  p.fromTop.components.filterMap Component.name?

end ConfinedFs.Path
