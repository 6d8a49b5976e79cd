import ConfinedFs.FileSystem

/-!
A filesystem mounted at a path of another one. Paths at or below the mountpoint
go to the mounted filesystem with the mountpoint taken off, all others to the
filesystem below. Nothing can be moved from one side to the other, and the
mountpoint itself can be neither moved nor removed.
-/

namespace ConfinedFs

/-- Two filesystems and the absolute path at which the second is mounted on the
first. -/
structure Mount (σ H : Type) where
  under : FileSystem σ H
  point : Path
  source : FileSystem σ H

namespace Mount

variable {σ H : Type}

/-- The side of a mount that a path lives on, and the path there. -/
inductive Route where
  | below (p : Path)
  | mounted (p : Path)
  deriving DecidableEq

namespace Route

def path : Route → Path
  | below p => p
  | mounted p => p

def isMounted : Route → Bool
  | below _ => false
  | mounted _ => true

end Route

/-- The mount of a filesystem at a path. -/
def attach (under : FileSystem σ H) (point : Path) (source : FileSystem σ H) : Mount σ H :=
  ⟨under, point.fromTop, source⟩

/-- Where a path leads. -/
def route (point p : Path) : Route :=
  match point.remainder? p.fromTop with
  | some rel => .mounted rel.fromTop
  | none => .below p.fromTop

/-- Is the path a spelling of the mountpoint? -/
def isPoint (point p : Path) : Bool := p.fromTop.same point

/-- The filesystem on one side. -/
def side (m : Mount σ H) : Route → FileSystem σ H
  | .below _ => m.under
  | .mounted _ => m.source

/-- The order of entries by name. One whose path does not end in a name comes
first. -/
def nameLE (a b : DirEntry) : Bool :=
  match a.path.fileName?, b.path.fileName? with
  | none, _ => true
  | some _, none => false
  | some x, some y => !decide (y < x)

/-- The listing of the mountpoint's parent with the mountpoint in it. It shows
up as a directory even if there is nothing below it. -/
def withPoint (point : Path) (top : Except FileError Metadata) (entries : List DirEntry) :
    List DirEntry :=
  let shown (m : Metadata) : Metadata := { m.named point with fileType := .ofDir }
  let entry : DirEntry := ⟨point, top.map shown⟩
  (entries ++ [entry]).mergeSort nameLE

/-- The mount as a filesystem. -/
def fileSystem (m : Mount σ H) : FileSystem σ H where
  openFile p o := do
    let r := route m.point p
    let f ← (m.side r).openFile r.path o
    return f.withName p
  stat p := do
    let r := route m.point p
    return (← (m.side r).stat r.path).named p
  rename source target := do
    if isPoint m.point source || isPoint m.point target then throw .baseDirRename
    let r := route m.point source
    let t := route m.point target
    if r.isMounted != t.isMounted then throw .crossDevice
    (m.side r).rename r.path t.path
  remove p := do
    if isPoint m.point p then throw .baseDirRemove
    let r := route m.point p
    (m.side r).remove r.path
  capabilities := m.under.capabilities.inter m.source.capabilities
  tempFile draws dir stem := do
    let r := route m.point dir
    let f ← (m.side r).tempFile draws r.path stem
    return f.withName (dir.join f.name.baseName)
  readDir p := do
    let parent := p.fromTop
    let r := route m.point p
    let showsPoint := !r.isMounted && m.point.dirName.same parent
    let entries ← do
      match ← ((m.side r).readDir r.path).outcome with
      | .ok listed => pure (listed.entries.map (DirEntry.listedIn parent))
      | .error .entityNotFound => if showsPoint then pure [] else throw .entityNotFound
      | .error e => throw e
    if showsPoint && !entries.any fun e => e.path.same m.point then
      return ⟨withPoint m.point (← (m.source.stat Path.top).outcome) entries⟩
    else return ⟨entries⟩
  createDirAll p mode := do
    let r := route m.point p
    (m.side r).createDirAll r.path mode
  lstat p := do
    let r := route m.point p
    return (← (m.side r).lstat r.path).named p
  symlink target link := do
    let r := route m.point link
    (m.side r).symlink target r.path
  readlink p := do
    let r := route m.point p
    (m.side r).readlink r.path
  root := m.under.root
  depth s := m.under.depth s + m.source.depth s + 1

end Mount

end ConfinedFs
