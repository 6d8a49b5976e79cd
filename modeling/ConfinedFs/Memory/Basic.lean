import ConfinedFs.Memory.Index
import ConfinedFs.Memory.SlotTable
import ConfinedFs.Metadata

/-!
A tree of files in memory. Nodes live in numbered slots and are found by their
place. What a node holds is kept apart from the nodes, so that an open handle can
go on using it after the node has been moved or removed.
-/

namespace ConfinedFs

/-- What a node is. -/
inductive NodeKind where
  | file
  | directory
  | symlink
  deriving DecidableEq, Inhabited

namespace NodeKind

def fileType : NodeKind → FileType
  | file => .ofFile
  | directory => .ofDir
  | symlink => .ofSymlink

end NodeKind

/-- What a node holds: bytes and permissions. A link holds its target. The time
of the last change is left out. -/
structure Content where
  data : Bytes := []
  perm : UInt32 := 0
  deriving DecidableEq, Inhabited

/-- What is known about a node of a kind that holds this, under a name. -/
def Content.metadata (c : Content) (kind : NodeKind) (name : Bytes) : Metadata where
  name := name
  fileType := kind.fileType
  perm := c.perm
  len := c.data.length

/-- The number of a cell that holds the content of one node. -/
abbrev CellId := Nat

/-- A node and the cell of its content. -/
structure Node where
  kind : NodeKind
  cell : CellId
  deriving DecidableEq

namespace Node

def isDir (n : Node) : Bool := n.kind = .directory

end Node

/-- The state of a filesystem in memory. Cells are never given to a second
node. -/
structure Memory where
  nodes : SlotTable Node
  index : Index
  cells : List Content

namespace Memory

/-- The permissions of directories that are created on the way to an entry. -/
def defaultDirMode : UInt32 := 0o755

/-- A tree with nothing but its top. -/
def fresh : Memory where
  nodes := (SlotTable.insert ⟨[], []⟩ ⟨.directory, 0⟩)
  index := ⟨[{ key := [], number := 0 }]⟩
  cells := [⟨[], defaultDirMode⟩]

instance : Inhabited Memory := ⟨fresh⟩

/-- The node at a place. -/
def nodeAt (m : Memory) (k : Key) : Option Node :=
  (m.index.find? k).bind m.nodes.get?

/-- The content of a cell. -/
def content (m : Memory) (c : CellId) : Content := m.cells.getD c {}

/-- The memory after a change of what one cell holds. -/
def modifyCell (m : Memory) (c : CellId) (f : Content → Content) : Memory :=
  { m with cells := m.cells.modify c f }

def hasDescendants (m : Memory) (k : Key) : Bool := m.index.hasDescendants k

/-- Is the place stored, or implied by a place below it? -/
def exists? (m : Memory) (k : Key) : Bool := m.index.contains k || m.hasDescendants k

/-- Is there a directory at the place, stored or implied? -/
def isDir (m : Memory) (k : Key) : Bool :=
  match m.nodeAt k with
  | some n => n.isDir
  | none => m.hasDescendants k

/-- What is known about the entry at a place, under the given name. -/
def describe (m : Memory) (k : Key) (name : Bytes) : Except FileError Metadata :=
  match m.nodeAt k with
  | some n => .ok ((m.content n.cell).metadata n.kind name)
  | none =>
    if m.hasDescendants k then
      .ok { name, fileType := .ofDir, perm := defaultDirMode, len := 0 }
    else .error .entityNotFound

/-- The names of the entries directly below a place, in order and each once. -/
def children (m : Memory) (k : Key) : List Name :=
  ((m.index.descendants k).filterMap fun e => (e.key.drop k.length).head?).eraseDups

end Memory

end ConfinedFs
