/-!
How a file is to be opened.
-/

namespace ConfinedFs

/-- The flags of an open request and the permissions of a file it creates. -/
structure OpenOptions where
  read : Bool := false
  write : Bool := false
  createNew : Bool := false
  create : Bool := false
  append : Bool := false
  truncate : Bool := false
  mode : UInt32 := 0o666
  deriving DecidableEq, Inhabited

namespace OpenOptions

/-- May the handle write? Appending is writing. -/
def writable (o : OpenOptions) : Bool := o.write || o.append

/-- May the handle read? One that asks for no access at all reads. -/
def readable (o : OpenOptions) : Bool := o.read || !o.writable

/-- May the request create the file? -/
def creates (o : OpenOptions) : Bool := o.create || o.createNew

/-- Can the request or the handle change the filesystem? -/
def mutates (o : OpenOptions) : Bool := o.writable || o.truncate || o.creates

/-- Opens an existing file for reading. -/
def reading : OpenOptions := { read := true }

/-- Opens an empty file for reading and writing. -/
def creating : OpenOptions := { read := true, write := true, create := true, truncate := true }

/-- Opens a file for writing and creates it if it is missing. -/
def touching : OpenOptions := { write := true, create := true }

/-- Opens an empty file for writing. -/
def replacing : OpenOptions := { write := true, create := true, truncate := true }

/-- Opens a file that no one but its owner may use and that did not exist
before. -/
def temporary : OpenOptions := { read := true, write := true, createNew := true, mode := 0o600 }

/-- A change of one setting of a request. -/
inductive Setting where
  | read (on : Bool)
  | write (on : Bool)
  | append (on : Bool)
  | truncate (on : Bool)
  | create (on : Bool)
  | createNew (on : Bool)
  | mode (bits : UInt32)
  /-- Replaces every setting at once. -/
  | all (options : OpenOptions)

/-- The request after a change. -/
def apply (o : OpenOptions) : Setting → OpenOptions
  | .read on => { o with read := on }
  | .write on => { o with write := on }
  | .append on => { o with append := on }
  | .truncate on => { o with truncate := on }
  | .create on => { o with create := on }
  | .createNew on => { o with createNew := on }
  | .mode bits => { o with mode := bits }
  | .all options => options

end OpenOptions

end ConfinedFs
