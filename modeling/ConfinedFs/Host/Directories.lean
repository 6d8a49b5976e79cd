import ConfinedFs.Os.Calls

/-!
Creating a directory together with the missing directories above it.
-/

namespace ConfinedFs.Host

open ConfinedFs.Os

/-- Creates a directory at a path of the host. -/
def mkdir (p : Path) (mode : UInt32) : Call Unit := do
  let (place, _) ← Action.query (Tree.resolve · p .keep)
  Call.mkdir place mode

/-- Does the path lead to a directory? -/
def isDir (t : Tree) (p : Path) : Bool :=
  match t.find p .follow with
  | .ok i => t.isDir i
  | .error _ => false

/-- Creates a directory, given by the names that lead to it in reverse. If that
fails because the directory above is missing, it is created first. What is
there already is no error if it is a directory. -/
def ensureUpwards (mode : UInt32) : List Name → Call Unit
  | [] => pure ()
  | n :: above => do
    let p := Path.ofNames (n :: above).reverse
    match ← (mkdir p mode).outcome with
    | .ok () => return ()
    | .error e =>
      if e = .noEntry then
        ensureUpwards mode above
        match ← (mkdir p mode).outcome with
        | .ok () => return ()
        | .error e => if !(← Action.look (isDir · p)) then throw e
      else if !(← Action.look (isDir · p)) then throw e

/-- Creates the directory at an absolute path without `..`, and the missing
directories above it. -/
def ensureDirs (names : List Name) (mode : UInt32) : Call Unit := ensureUpwards mode names.reverse

end ConfinedFs.Host
