import ConfinedFs.Text.Bytes

/-!
Paths. A path is any byte string; what it designates is the sequence of its
components. Repeated and trailing separators and inner `.` components do not
count.
-/

namespace ConfinedFs

open ConfinedFs.Bytes

/-- Can the bytes name an entry of a directory? A name is not empty, holds no
separator and is neither of the two reserved texts. -/
def isName (bytes : Bytes) : Bool :=
  !bytes.isEmpty && !bytes.contains slash && bytes != [dot] && bytes != [dot, dot]

/-- The name of an entry in a directory. -/
structure Name where
  bytes : Bytes
  valid : isName bytes = true
  deriving DecidableEq

namespace Name

/-- The bytes as a name, if they can be one. -/
def ofBytes? (bytes : Bytes) : Option Name :=
  if h : isName bytes = true then some ⟨bytes, h⟩ else none

/-- Names are ordered byte by byte. -/
instance : LT Name := ⟨fun a b => a.bytes < b.bytes⟩

instance (a b : Name) : Decidable (a < b) :=
  inferInstanceAs (Decidable (a.bytes < b.bytes))

theorem ext {a b : Name} (h : a.bytes = b.bytes) : a = b := by
  cases a
  cases b
  simpa using h

instance : Std.Irrefl (· < · : Name → Name → Prop) := ⟨fun a => List.lt_irrefl a.bytes⟩

instance : Trans (· < · : Name → Name → Prop) (· < ·) (· < ·) :=
  ⟨fun h h' => List.lt_trans (α := UInt8) h h'⟩

instance : Std.Asymm (· < · : Name → Name → Prop) :=
  ⟨fun a _ h h' => List.lt_irrefl a.bytes (List.lt_trans h h')⟩

instance : Std.Trichotomous (· < · : Name → Name → Prop) :=
  ⟨fun _ _ h h' => ext (List.le_antisymm (List.not_lt.1 h') (List.not_lt.1 h))⟩

theorem ofBytes?_bytes (n : Name) : ofBytes? n.bytes = some n := by
  simp [ofBytes?, n.valid]

end Name

/-- One step of a path. -/
inductive Component where
  /-- The top of the tree, only in first position. -/
  | root
  /-- The place itself, only as the first component of a relative path. -/
  | current
  /-- One level up. -/
  | parent
  /-- One level down. -/
  | name (n : Name)
  deriving DecidableEq

namespace Component

/-- The component as it is written in a path, the top as an empty field. -/
def text : Component → Bytes
  | root => []
  | current => [dot]
  | parent => [dot, dot]
  | name n => n.bytes

/-- The component that a field between separators stands for. Empty fields and
`.` stand for none. -/
def ofField? (field : Bytes) : Option Component :=
  if field = [dot, dot] then some parent else (Name.ofBytes? field).map name

def isName : Component → Bool
  | name _ => true
  | _ => false

def name? : Component → Option Name
  | name n => some n
  | _ => none

end Component

/-- A path as the caller wrote it. -/
structure Path where
  bytes : Bytes
  deriving DecidableEq, Inhabited

namespace Path

/-- The path with the given UTF-8 text. -/
def ofString (text : String) : Path := ⟨Bytes.ofString text⟩

def isEmpty (p : Path) : Bool := p.bytes.isEmpty

/-- An absolute path starts with a separator. -/
def isAbsolute (p : Path) : Bool := p.bytes.head? == some slash

/-- The path of the top. -/
def top : Path := ⟨[slash]⟩

/-- The path of the place itself. -/
def here : Path := ⟨[dot]⟩

/-- The path of the place one level up. -/
def up : Path := ⟨[dot, dot]⟩

/-- The components of a path. The first field tells an absolute path (it is
empty) and a path that starts with `.`; each other field counts if it stands
for a component. -/
def components (p : Path) : List Component :=
  let named := (fields slash p.bytes).filterMap Component.ofField?
  if p.isAbsolute then .root :: named
  else if (fields slash p.bytes).head? = some [dot] then .current :: named
  else named

/-- The path written with one separator between components. -/
def ofComponents : List Component → Path
  | [.root] => top
  | cs => ⟨Bytes.join slash (cs.map Component.text)⟩

/-- The path below the top that passes through the given names. -/
def ofNames (names : List Name) : Path :=
  ofComponents (.root :: names.map .name)

/-- Do two paths have the same components? -/
def same (p q : Path) : Bool := p.components = q.components

/-- `other` after `p`: an absolute `other` replaces `p`, a relative one is
written after a separator. -/
def push (p other : Path) : Path :=
  if other.isAbsolute then other
  else if p.isEmpty || p.bytes.getLast? == some slash then ⟨p.bytes ++ other.bytes⟩
  else ⟨p.bytes ++ slash :: other.bytes⟩

/-- The last component, if it is a name. -/
def fileName? (p : Path) : Option Bytes :=
  match p.components.getLast? with
  | some (.name n) => some n.bytes
  | _ => none

end Path

end ConfinedFs
