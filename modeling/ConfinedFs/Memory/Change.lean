import ConfinedFs.Action
import ConfinedFs.OpenOptions
import ConfinedFs.Memory.Resolve

/-!
Changes of the tree in memory: creating nodes, removing subtrees and moving
them to another place.
-/

namespace ConfinedFs.Memory

/-- Stores a new node at a place. It gets a cell of its own. -/
def addNode (m : Memory) (k : Key) (kind : NodeKind) (c : Content) : Memory where
  nodes := m.nodes.insert ⟨kind, m.cells.length⟩
  index := m.index.insert k m.nodes.nextSlot
  cells := m.cells ++ [c]

/-- Creates directories at those of the places, taken in order, that hold
nothing. -/
def ensureEach (perm : UInt32) : List Key → Action FileError Memory Unit
  | [] => pure ()
  | k :: rest => do
    match ← Action.look (·.nodeAt k) with
    | some n => if n.isDir then ensureEach perm rest else throw .baseNotDirectory
    | none =>
      Action.update fun m => m.addNode k .directory ⟨[], perm⟩
      ensureEach perm rest

/-- Creates a directory at a place and at every place above it that holds
nothing. -/
def ensureDirs (k : Key) (perm : UInt32) : Action FileError Memory Unit := ensureEach perm k.chain

/-- Stores a new node at a place and creates the missing directories above. The
result is the cell of the node. -/
def createNode (k : Key) (kind : NodeKind) (c : Content) : Action FileError Memory CellId := do
  ensureDirs k.parent defaultDirMode
  let cell ← Action.look (·.cells.length)
  Action.update fun m => m.addNode k kind c
  return cell

/-- Drops one entry of the index and frees its slot. -/
def dropEntry (m : Memory) (e : Index.Entry) : Memory :=
  { m with index := m.index.erase e.key, nodes := m.nodes.erase e.number }

/-- Drops the node at a place and everything below it. -/
def prune (m : Memory) (k : Key) : Memory := (m.index.subtree k).foldl dropEntry m

/-- Moves the node at a place and everything below it to another place. The
nodes stay the same. -/
def transplant (m : Memory) (source target : Key) : Memory :=
  let moved := m.index.subtree source
  let rest := moved.foldl (fun x e => x.erase e.key) m.index
  let placed (e : Index.Entry) : Key := target ++ e.key.drop source.length
  { m with index := moved.foldl (fun x e => x.insert (placed e) e.number) rest }

/-- The cell of the file that an open request finds. -/
def fileAt (m : Memory) (p : Path) (o : OpenOptions) : Except FileError CellId := do
  if o.createNew then
    if m.exists? (← m.resolve p false) then throw .alreadyExists
  let k ← m.resolve p true
  match m.nodeAt k with
  | some ⟨.file, c⟩ => return c
  | some _ => throw .notAFile
  | none => if m.hasDescendants k then throw .notAFile else throw .entityNotFound

/-- The cell of the file that an open request finds or creates. -/
def fileFor (p : Path) (o : OpenOptions) : Action FileError Memory CellId := do
  match ← Action.look (fileAt · p o) with
  | .error .entityNotFound =>
    let k ← Action.query (resolve · p true)
    createNode k .file ⟨[], o.mode &&& permissionMask⟩
  | .error e => throw e
  | .ok c => return c

/-- Moves an entry to another place. A file replaces a file or a link, a
directory replaces an empty directory. -/
def rename (source target : Path) : Action FileError Memory Unit := do
  let source ← Action.query (resolve · source false)
  let target ← Action.query (resolve · target false)
  if source = [] ∨ target = [] then throw .baseNotDirectory
  if !(← Action.look (exists? · source)) then throw .entityNotFound
  if source = target then return ()
  if source.isPrefixOf target then throw .invalidInput
  let sourceIsDir ← Action.look (isDir · source)
  if ← Action.look (exists? · target) then
    let targetIsDir ← Action.look (isDir · target)
    if sourceIsDir && targetIsDir then
      if ← Action.look (hasDescendants · target) then throw .directoryNotEmpty
    else if targetIsDir then throw .notAFile
    else if sourceIsDir then throw .baseNotDirectory
    Action.update (prune · target)
  ensureDirs target.parent defaultDirMode
  Action.update (transplant · source target)

/-- Removes a file, a link or an empty directory. -/
def remove (p : Path) : Action FileError Memory Unit := do
  let k ← Action.query (resolve · p false)
  if k = [] then throw .baseNotDirectory
  if !(← Action.look (exists? · k)) then throw .entityNotFound
  if ← Action.look (hasDescendants · k) then throw .directoryNotEmpty
  Action.update (prune · k)

/-- Creates a directory and the missing directories above it. -/
def createDirAll (p : Path) (mode : UInt32) : Action FileError Memory Unit := do
  let k ← Action.query (resolve · p true)
  match ← Action.look (nodeAt · k) with
  | some n => if !n.isDir then throw .alreadyExists
  | none => pure ()
  ensureDirs k (mode &&& permissionMask)

/-- Creates a link. Its target is kept as it is. -/
def symlink (target link : Path) : Action FileError Memory Unit := do
  let k ← Action.query (resolve · link false)
  if ← Action.look (exists? · k) then throw .alreadyExists
  let _ ← createNode k .symlink ⟨target.bytes, 0o777⟩

end ConfinedFs.Memory
