/-!
What a filesystem may support beyond the bare minimum, as a set of flags.
-/

namespace ConfinedFs

/-- A set of optional features. -/
structure Capability where
  bits : UInt32
  deriving DecidableEq, Inhabited

namespace Capability

/-- Files can be written to. -/
def write : Capability := ⟨1⟩

/-- Files can be read from. -/
def read : Capability := ⟨2⟩

/-- Files can be open for reading and writing at the same time. -/
def readAndWrite : Capability := ⟨4⟩

/-- The position in a file can be moved. -/
def seek : Capability := ⟨8⟩

/-- Files can be cut or extended. -/
def truncate : Capability := ⟨16⟩

/-- Files can be locked. -/
def lock : Capability := ⟨32⟩

/-- The features of either set. -/
def union (a b : Capability) : Capability := ⟨a.bits ||| b.bits⟩

/-- The features of both sets. -/
def inter (a b : Capability) : Capability := ⟨a.bits &&& b.bits⟩

/-- Every known feature. -/
def all : Capability :=
  [read, readAndWrite, seek, truncate, lock].foldl union write

/-- The features of the first set that are not in the second. -/
def minus (a b : Capability) : Capability := ⟨a.bits &&& ~~~b.bits &&& all.bits⟩

/-- Does the first set hold every feature of the second? -/
def contains (a b : Capability) : Bool := a.inter b = b

/-- Do the two sets share a feature? -/
def intersects (a b : Capability) : Bool := a.inter b != ⟨0⟩

/-- The known features among the bits of a word. -/
def ofBits (word : UInt32) : Capability := ⟨word &&& all.bits⟩

/-- Does the word hold bits of known features only? -/
def isKnown (word : UInt32) : Bool := (ofBits word).bits = word

end Capability

end ConfinedFs
