import ConfinedFs.FileSystem

/-!
A jail: a filesystem confined to a subtree of another one by looking at the
texts of paths. A path that climbs above its start is refused before the other
filesystem hears of it; every other one is put below the base.

The check is lexical. A link stored below that leads out is followed by the
filesystem below.
-/

namespace ConfinedFs

/-- A filesystem and the path, cleaned, that paths are put below. -/
structure Jail (σ H : Type) where
  under : FileSystem σ H
  base : Path

namespace Jail

variable {σ H : Type}

/-- The jail at a path. -/
def confine (under : FileSystem σ H) (base : Path) : Jail σ H := ⟨under, base.clean⟩

/-- A path of the jail as the filesystem below has to be asked for it. -/
def place (base p : Path) : Except FileError Path :=
  if p.climbsOut then .error .crossedBoundary else .ok (base.join p.clean)

/-- A path relative to the top of the jail. -/
def view (p : Path) : Path := (Path.top.remainder? p.fromTop).getD Path.here

/-- The target of a link as it has to be stored. An absolute target is put
below the base. A relative one stays, unless it climbs out of the jail from the
directory of the link. -/
def storedTarget (base target link : Path) : Except FileError Path :=
  if target.isAbsolute then .ok (base.join target.clean)
  else if ((view link).dirName.join target).climbsOut then .error .crossedBoundary
  else .ok target

/-- The target of a stored link as the jail shows it. An absolute target has to
lie below the base. -/
def shownTarget (base target : Path) : Except FileError Path :=
  if target.isAbsolute then
    match base.remainder? target with
    | some rel => .ok rel.fromTop
    | none => .error .crossedBoundary
  else .ok target

/-- The directory at a path, taken as the base of a jail of its own. -/
def narrow (j : Jail σ H) (p : Path) : Except FileError (Jail σ H) := do
  return Jail.confine j.under (← place j.base p)

/-- The jail as a filesystem. -/
def fileSystem (j : Jail σ H) : FileSystem σ H where
  openFile p o := do
    let full ← Action.ofExcept (place j.base p)
    let f ← j.under.openFile full o
    return f.withName p
  stat p := do
    let full ← Action.ofExcept (place j.base p)
    return (← j.under.stat full).named p
  rename source target := do
    let source ← Action.ofExcept (place j.base source)
    let target ← Action.ofExcept (place j.base target)
    j.under.rename source target
  remove p := do
    j.under.remove (← Action.ofExcept (place j.base p))
  capabilities := j.under.capabilities
  tempFile draws dir stem := do
    let full ← Action.ofExcept (place j.base dir)
    let f ← j.under.tempFile draws full stem
    return f.withName (dir.join f.name.baseName)
  readDir p := do
    let full ← Action.ofExcept (place j.base p)
    let listed ← j.under.readDir full
    return ⟨listed.entries.map (DirEntry.listedIn p.fromTop)⟩
  createDirAll p mode := do
    j.under.createDirAll (← Action.ofExcept (place j.base p)) mode
  lstat p := do
    let full ← Action.ofExcept (place j.base p)
    return (← j.under.lstat full).named p
  symlink target link := do
    let full ← Action.ofExcept (place j.base link)
    let stored ← Action.ofExcept (storedTarget j.base target link)
    j.under.symlink stored full
  readlink p := do
    let full ← Action.ofExcept (place j.base p)
    let target ← j.under.readlink full
    Action.ofExcept (shownTarget j.base target)
  root := j.base
  depth := j.under.depth

end Jail

end ConfinedFs
