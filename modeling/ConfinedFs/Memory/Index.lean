import ConfinedFs.Path.Lexical

/-!
An index from places of a tree to numbers. A place is the list of names that
lead to it from the top. Places are ordered name by name, so everything below a
place follows it directly, before any place that only starts with the same
bytes.
-/

namespace ConfinedFs

/-- The names that lead to a place from the top. -/
abbrev Key := List Name

namespace Key

/-- The place one level up; the top is above itself. -/
def parent (k : Key) : Key := k.dropLast

/-- A place is below another one if the other's names are a proper part of its
own, from the top on. -/
def isBelow (k top : Key) : Bool := top.isPrefixOf k && top.length < k.length

/-- A place and all places above it, from the top down. -/
def chain : Key → List Key
  | [] => [[]]
  | n :: rest => [] :: (chain rest).map (n :: ·)

/-- The path of a place. -/
def path (k : Key) : Path := Path.ofNames k

end Key

/-- A place with its number. The depth of the place is kept beside it: places of
unequal depth need not be compared name by name. -/
structure Index.Entry where
  key : Key
  number : Nat
  depth : Nat := key.length
  depth_eq : depth = key.length := by rfl
  deriving DecidableEq

/-- Is the entry that of a place of the given depth? -/
def Index.Entry.isFor (e : Index.Entry) (k : Key) (depth : Nat) : Bool :=
  e.depth = depth && e.key = k

theorem Index.Entry.isFor_length (e : Index.Entry) (k : Key) :
    e.isFor k k.length = decide (e.key = k) := by
  by_cases h : e.key = k
  · simp [isFor, h, e.depth_eq]
  · simp [isFor, h]

/-- Is the entry that of a place below one of the given depth? -/
def Index.Entry.isUnder (e : Index.Entry) (k : Key) (depth : Nat) : Bool :=
  depth < e.depth && k.isPrefixOf e.key

theorem Index.Entry.isUnder_length (e : Index.Entry) (k : Key) :
    e.isUnder k k.length = e.key.isBelow k := by
  rw [isUnder, Key.isBelow, e.depth_eq, Bool.and_comm]

/-- Places with their numbers, in the order of places. -/
structure Index where
  entries : List Index.Entry := []

namespace Index

/-- The entries with one more, before the first entry that is not smaller. An
entry for the same place is replaced. -/
def insertEntry (k : Key) (i : Nat) : List Entry → List Entry
  | [] => [{ key := k, number := i }]
  | e :: rest =>
    if e.key < k then e :: insertEntry k i rest
    else if e.key = k then { key := k, number := i } :: rest
    else { key := k, number := i } :: e :: rest

/-- The number of a place. -/
def find? (x : Index) (k : Key) : Option Nat :=
  let depth := k.length
  (x.entries.find? (·.isFor k depth)).map (·.number)

theorem find?_eq (x : Index) (k : Key) :
    x.find? k = (x.entries.find? fun e => e.key = k).map (·.number) := by
  simp [find?, Entry.isFor_length]

def contains (x : Index) (k : Key) : Bool := (x.find? k).isSome

def insert (x : Index) (k : Key) (i : Nat) : Index := ⟨insertEntry k i x.entries⟩

def erase (x : Index) (k : Key) : Index :=
  let depth := k.length
  ⟨x.entries.filter fun e => !e.isFor k depth⟩

theorem find?_insert (x : Index) (k : Key) (i : Nat) (j : Key) :
    (x.insert k i).find? j = if j = k then some i else x.find? j := by
  obtain ⟨entries⟩ := x
  simp only [find?_eq, insert]
  induction entries with
  | nil => by_cases h : k = j <;> simp [insertEntry, h, Ne.symm, eq_comm]
  | cons e rest ih =>
    rw [insertEntry]
    split
    · next hlt =>
      by_cases h : e.key = j
      · have : j ≠ k := fun hk => List.lt_irrefl k (by rwa [h, hk] at hlt)
        simp [h, this]
      · simpa [h] using ih
    · split
      · next heq => by_cases h : j = k <;> simp [heq, h, eq_comm]
      · by_cases h : j = k <;> simp [h, eq_comm]

theorem find?_erase (x : Index) (k j : Key) :
    (x.erase k).find? j = if j = k then none else x.find? j := by
  obtain ⟨entries⟩ := x
  simp only [find?_eq, erase, Entry.isFor_length, List.find?_filter]
  split
  · next h => subst h; simp
  · next h =>
    congr 2
    funext e
    by_cases he : e.key = j <;> simp [he, h]

/-- The entries below a place: the run that starts at the first one and ends
before the next entry that is not below the place. -/
def descendants (x : Index) (k : Key) : List Entry :=
  let depth := k.length
  (x.entries.dropWhile fun e => !e.isUnder k depth).takeWhile fun e => e.isUnder k depth

def hasDescendants (x : Index) (k : Key) : Bool := !(x.descendants k).isEmpty

/-- The entry of a place and those below it. -/
def subtree (x : Index) (k : Key) : List Entry :=
  match x.find? k with
  | some i => { key := k, number := i } :: x.descendants k
  | none => x.descendants k

end Index

end ConfinedFs
