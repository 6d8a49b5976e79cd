import ConfinedFs.Layer.Jail
import ConfinedFs.Layer.Mount
import ConfinedFs.Layer.Completion
import ConfinedFs.Layer.Recorder
import ConfinedFs.Memory.Dump
import ConfinedFs.Memory.FileSystem
import ConfinedFs.Rooted.FileSystem

/-!
A world with any number of filesystems in memory, one host and the logs of
recorders. A volume describes a filesystem of the world: an engine, or layers
over other volumes.
-/

namespace ConfinedFs

/-- Everything filesystems act on. -/
structure World where
  memories : List Memory := []
  tree : Os.Tree := .fresh
  logs : List (List Request) := []

namespace World

/-- The state of one filesystem in memory. -/
def memory (i : Nat) : Part World Memory where
  get w := w.memories.getD i .fresh
  set m w := { w with memories := w.memories.set i m }

/-- The host. -/
def host : Part World Os.Tree where
  get w := w.tree
  set t w := { w with tree := t }

/-- The world with one more entry in a log. -/
def record (i : Nat) (r : Request) (w : World) : World :=
  { w with logs := w.logs.modify i (· ++ [r]) }

/-- Empties a log and gives what was in it. -/
def takeLog (i : Nat) : Action FileError World (List Request) := fun w =>
  (.ok (w.logs.getD i []), { w with logs := w.logs.set i [] })

end World

/-- A handle on an open file of the world. -/
inductive Handle where
  | memory (engine : Nat) (h : Memory.Handle)
  | host (h : Os.FileHandle)
  deriving DecidableEq

namespace Handle

variable {ε α : Type}

/-- An operation on a handle, whichever kind it is of. -/
def dispatch (onMemory : Action ε (Memory.Handle × Memory) α)
    (onHost : Action ε (Os.FileHandle × Os.Tree) α) : Action ε (Handle × World) α := fun s =>
  match s with
  | (.memory i h, w) =>
    match onMemory (h, (World.memory i).get w) with
    | (r, h', m) => (r, .memory i h', (World.memory i).set m w)
  | (.host h, w) =>
    match onHost (h, w.tree) with
    | (r, h', t) => (r, .host h', World.host.set t w)

instance device : Device World Handle where
  read n := dispatch (Device.read n) (Device.read n)
  readRest := dispatch Device.readRest Device.readRest
  write bytes := dispatch (Device.write bytes) (Device.write bytes)
  flush := dispatch Device.flush Device.flush
  seek target := dispatch (Device.seek target) (Device.seek target)
  readAt n offset := dispatch (Device.readAt n offset) (Device.readAt n offset)
  writeAt bytes offset := dispatch (Device.writeAt bytes offset) (Device.writeAt bytes offset)
  truncate size := dispatch (Device.truncate size) (Device.truncate size)
  metadata p := dispatch (Device.metadata p) (Device.metadata p)
  lock := dispatch Device.lock Device.lock
  unlock := dispatch Device.unlock Device.unlock
  close := dispatch Device.close Device.close

end Handle

/-- A filesystem of the world. -/
inductive Volume where
  /-- A filesystem in memory. -/
  | memory (engine : Nat)
  /-- The host below a directory. -/
  | host (h : Host)
  /-- The host confined to a directory by the operating system. -/
  | confined (c : Confined)
  /-- Another volume confined to a subtree by the texts of paths. -/
  | jail (under : Volume) (base : Path)
  /-- A volume with another one mounted at a path. -/
  | mount (under : Volume) (point : Path) (source : Volume)
  /-- The basic side of a volume, with other capabilities if they are given. -/
  | completed (under : Volume) (capabilities : Option Capability)
  /-- A volume in which every name is taken. -/
  | crowded
  /-- A volume whose requests are written to a log. -/
  | recorded (under : Volume) (log : Nat)
  deriving DecidableEq

namespace Volume

/-- The basic side of a filesystem with the given capabilities. -/
def bareSide (fs : FileSystem World Handle) (capabilities : Option Capability) :
    BareFileSystem World Handle :=
  { fs.toBareFileSystem with capabilities := capabilities.getD fs.capabilities }

/-- The operations of a volume. -/
def fileSystem : Volume → FileSystem World Handle
  | memory i => Memory.fileSystem.within (World.memory i) (.memory i)
  | host h => h.fileSystem.within World.host .host
  | confined c => c.fileSystem.within World.host .host
  | jail under base => Jail.fileSystem ⟨under.fileSystem, base⟩
  | mount under point source => Mount.fileSystem ⟨under.fileSystem, point, source.fileSystem⟩
  | completed under capabilities => (bareSide under.fileSystem capabilities).complete
  | crowded => BareFileSystem.crowded.complete
  | recorded under log => under.fileSystem.recorded (World.record log)

/-- The jail at a path of a volume. -/
def jailAt (under : Volume) (base : Path) : Volume := jail under base.clean

/-- The mount of a volume at a path of another one. -/
def mountAt (under : Volume) (point : Path) (source : Volume) : Volume :=
  mount under point.fromTop source

/-- The volume confined to the directory at a path. A jail in a jail has one
base, and the system confines the host again; all others get a jail over
them. -/
def chroot : Volume → Path → Action FileError World Volume
  | jail under base, p => do return jailAt under (← Action.ofExcept (Jail.place base p))
  | confined c, p => do return confined (← (c.narrow p).within World.host)
  | recorded under log, p => FileSystem.logging (World.record log) (.chroot p) (chroot under p)
  | v, p => return jailAt v p.fromTop

end Volume

end ConfinedFs
