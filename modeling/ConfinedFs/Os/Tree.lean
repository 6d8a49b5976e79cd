import ConfinedFs.Action
import ConfinedFs.Association
import ConfinedFs.Error.Errno
import ConfinedFs.Path.Basic

/-!
The operating system's tree of files. A node is known by where it was created,
whatever becomes of it later, and is never forgotten: one that has no entry left
in any directory can still be held open. A directory knows the directory above
it, which is what `..` leads to. The caller has no special rights, and nodes have
no access lists: what the permissions of a node do not give to one of the
caller's standing, its owner, a member of its group or neither, is denied.
-/

namespace ConfinedFs.Os

/-- The identity of a node: how many directories are above the place it was
created at, and how many nodes each of them had created before, the nearest one
first. What is done in one directory has no say in what nodes of another one are
called. -/
structure NodeId where
  depth : Nat
  births : List Nat
  deriving DecidableEq

/-- The identity of the node that was created in a directory after `count`
others. -/
def NodeId.child (dir : NodeId) (count : Nat) : NodeId := ⟨dir.depth + 1, count :: dir.births⟩

theorem NodeId.child_inj {dir dir' : NodeId} {count count' : Nat} :
    dir.child count = dir'.child count' ↔ dir = dir' ∧ count = count' := by
  cases dir
  cases dir'
  simp [child]
  grind

/-- What is to be done with a node: its data or entries are read, they are
changed, or a name is looked up in a directory. -/
inductive Access where
  | read
  | write
  | search
  deriving DecidableEq

/-- What the caller is to a node: its owner, a member of its group, or neither. An
owner counts as a member of the group. -/
inductive Standing where
  | owner
  | member
  | stranger
  deriving DecidableEq

namespace Standing

/-- How far the bits for a caller of this standing are below those for the owner. -/
def shift : Standing → UInt32
  | owner => 0
  | member => 3
  | stranger => 6

end Standing

/-- The permissions of a node, and what the caller is to it. -/
structure Permissions where
  bits : UInt32
  standing : Standing := .owner
  deriving DecidableEq

namespace Permissions

/-- Bits alone are the permissions of a node that belongs to the caller. -/
instance ofNat (n : Nat) : OfNat Permissions n := ⟨{ bits := OfNat.ofNat n }⟩

/-- Do the entries of a directory get its group? -/
def handsDown (p : Permissions) : Bool := p.bits &&& 0o2000 ≠ 0

/-- May the entries of a directory only be taken away by those who own one of the
two? -/
def isSticky (p : Permissions) : Bool := p.bits &&& 0o1000 ≠ 0

/-- The permissions of a file after a change of its data. Nobody is to run changed
data with the rights of the file's owner or group. -/
def changed (p : Permissions) : Permissions :=
  let forOwner : UInt32 := 0o4000
  let forGroup : UInt32 := if p.bits &&& 0o010 ≠ 0 || p.standing = .stranger then 0o2000 else 0
  { p with bits := p.bits &&& ~~~(forOwner ||| forGroup) }

/-- What a first change has taken away cannot be taken away again. -/
@[simp]
theorem changed_changed (p : Permissions) : p.changed.changed = p.changed := by
  have hkept : ∀ withheld : UInt32, ~~~withheld &&& 0o010 = 0o010 →
      p.bits &&& ~~~withheld &&& 0o010 = p.bits &&& 0o010 := by
    intro withheld h
    rw [UInt32.and_assoc, h]
  have htwice : ∀ withheld : UInt32,
      p.bits &&& ~~~withheld &&& ~~~withheld = p.bits &&& ~~~withheld := by
    intro withheld
    rw [UInt32.and_assoc, UInt32.and_self]
  by_cases hgroup : (p.bits &&& 0o010 ≠ 0 || p.standing = .stranger) = true
  · simp only [changed, if_pos hgroup, hkept (0o4000 ||| 0o2000) rfl, htwice]
  · simp only [changed, if_neg hgroup, hkept (0o4000 ||| 0) rfl, htwice]

end Permissions

namespace Access

/-- The bit that gives an access to the owner. -/
def bit : Access → UInt32
  | read => 0o400
  | write => 0o200
  | search => 0o100

/-- Do the permissions give an access to the caller? -/
def allowedBy (a : Access) (p : Permissions) : Bool := p.bits &&& (a.bit >>> p.standing.shift) ≠ 0

end Access

/-- A directory, with a count of the nodes that were created in it. One that has
been removed has no entries and gets no more. -/
structure Directory where
  perm : Permissions
  parent : NodeId
  entries : List (Name × NodeId) := []
  created : Nat := 0
  removed : Bool := false
  deriving DecidableEq

/-- A node. -/
inductive Inode where
  | directory (d : Directory)
  | file (perm : Permissions) (data : Bytes)
  | symlink (standing : Standing) (target : Path)
  /-- A pipe, a socket or a device. What is behind it is not part of the tree. -/
  | special (perm : Permissions)
  deriving DecidableEq

namespace Inode

/-- The permissions of a node. Those of a link stand in nobody's way. -/
def perm : Inode → Permissions
  | directory d => d.perm
  | file perm _ => perm
  | symlink standing _ => ⟨0o777, standing⟩
  | special perm => perm

end Inode

/-- The nodes by identity. -/
structure Tree where
  nodes : List (NodeId × Inode)
  /-- The permissions that the caller's new entries never get. -/
  umask : UInt32 := 0o022

namespace Tree

/-- The top of the tree, which was not created in any directory. -/
def top : NodeId := ⟨0, []⟩

/-- A tree with nothing but its top. -/
def fresh : Tree := { nodes := [(top, .directory { perm := 0o755, parent := top })] }

instance : Inhabited Tree := ⟨fresh⟩

def node? (t : Tree) (i : NodeId) : Option Inode := t.nodes.lookup i

/-- The directory of an identity. -/
def dir? (t : Tree) (i : NodeId) : Option Directory :=
  match t.node? i with
  | some (.directory d) => some d
  | _ => none

/-- The target of the link of an identity. -/
def link? (t : Tree) (i : NodeId) : Option Path :=
  match t.node? i with
  | some (.symlink _ target) => some target
  | _ => none

def isDir (t : Tree) (i : NodeId) : Bool := (t.dir? i).isSome

/-- Is the node one that stands for something outside of the tree? -/
def isSpecial (t : Tree) (i : NodeId) : Bool :=
  match t.node? i with
  | some (.special _) => true
  | _ => false

/-- Fails if the permissions of a node do not give an access. -/
def demand (t : Tree) (a : Access) (i : NodeId) : Except Errno Unit :=
  match t.node? i with
  | some n => if a.allowedBy n.perm then .ok () else .error .accessDenied
  | none => .error .badDescriptor

/-- The permissions of the node of an identity. -/
def perm? (t : Tree) (i : NodeId) : Option Permissions := (t.node? i).map (·.perm)

/-- Does a directory keep the caller from taking away the entry for a node? -/
def guards (t : Tree) (dir i : NodeId) : Bool :=
  (t.perm? dir).any (fun p => p.isSticky && p.standing ≠ .owner) &&
    (t.perm? i).any (·.standing ≠ .owner)

/-- Fails if the entry of a directory for a node may not be taken away. -/
def demandRemoval (t : Tree) (dir i : NodeId) : Except Errno Unit := do
  t.demand .write dir
  if t.guards dir i then throw .notPermitted

/-- The permissions of a new directory in another one. The bit that hands down the
group is handed down itself. -/
def dirPerm (t : Tree) (dir : NodeId) (mode : UInt32) : Permissions :=
  let inherited : UInt32 := if (t.perm? dir).any (·.handsDown) then 0o2000 else 0
  { bits := mode &&& 0o1777 &&& ~~~t.umask ||| inherited }

/-- The permissions of a new file in a directory. A stranger to the group that is
handed down cannot let others run the file with the rights of the group. -/
def filePerm (t : Tree) (dir : NodeId) (mode : UInt32) : Permissions :=
  let foreign := (t.perm? dir).any fun p => p.handsDown && p.standing = .stranger
  let withheld : UInt32 := if foreign && mode &&& 0o2010 = 0o2010 then 0o2000 else 0
  { bits := mode &&& 0o7777 &&& ~~~(t.umask ||| withheld) }

/-- The tree with a node, in the place of any other one of its identity. -/
def put (t : Tree) (i : NodeId) (n : Inode) : Tree :=
  { t with nodes := Association.insert i n t.nodes }

theorem node?_put (t : Tree) (i j : NodeId) (n : Inode) :
    (t.put i n).node? j = if j = i then some n else t.node? j :=
  Association.lookup_insert t.nodes i n j

/-- Of two nodes that are put in one place, the second one stays. -/
theorem put_put (t : Tree) (i : NodeId) (n n' : Inode) : (t.put i n).put i n' = t.put i n' := by
  simp only [put, Association.insert_insert]

@[simp]
theorem umask_put (t : Tree) (i : NodeId) (n : Inode) : (t.put i n).umask = t.umask := rfl

/-- The identity of the next node to be created in a directory. -/
def nextId (t : Tree) (dir : NodeId) : NodeId :=
  dir.child (((t.dir? dir).map (·.created)).getD 0)

/-- The tree after a change of one directory. -/
def modifyDir (t : Tree) (i : NodeId) (f : Directory → Directory) : Tree :=
  match t.dir? i with
  | some d => t.put i (.directory (f d))
  | none => t

@[simp]
theorem umask_modifyDir (t : Tree) (i : NodeId) (f : Directory → Directory) :
    (t.modifyDir i f).umask = t.umask := by
  unfold modifyDir
  split <;> rfl

/-- The tree with an entry in a directory. -/
def link (t : Tree) (dir : NodeId) (n : Name) (i : NodeId) : Tree :=
  t.modifyDir dir fun d => { d with entries := Association.insert n i d.entries }

/-- The tree without an entry of a directory. -/
def unlink (t : Tree) (dir : NodeId) (n : Name) : Tree :=
  t.modifyDir dir fun d => { d with entries := Association.erase n d.entries }

/-- The tree in which a directory is gone. -/
def retire (t : Tree) (i : NodeId) : Tree := t.modifyDir i fun d => { d with removed := true }

/-- Is the first directory the second one or above it? The search goes up from
the second one for at most the given number of levels. -/
def isAboveWithin (t : Tree) (i : NodeId) : Nat → NodeId → Bool
  | 0, j => i = j
  | levels + 1, j =>
    i = j ||
      match t.dir? j with
      | some d => d.parent ≠ j && isAboveWithin t i levels d.parent
      | none => false

/-- Is the first directory the second one or above it? -/
def isAbove (t : Tree) (i j : NodeId) : Bool := isAboveWithin t i t.nodes.length j

end Tree

end ConfinedFs.Os
