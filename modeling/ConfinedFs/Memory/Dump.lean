import ConfinedFs.Memory.Basic

/-!
The tree in memory as a table: one line for each place, with its number, what
it is and its path.
-/

namespace ConfinedFs.Memory

/-- A text in a column of at least `width` characters. -/
def column (width : Nat) (text : String) : String :=
  text ++ String.ofList (List.replicate (width - text.length) ' ')

/-- A line of the table. -/
def row (number kind path : String) : String :=
  column 8 number ++ "    " ++ column 9 kind ++ "    " ++ path ++ "\n"

/-- What the slot of an entry holds. -/
def kindText : Option Node → String
  | some ⟨.file, _⟩ => "file"
  | some ⟨.directory, _⟩ => "dir"
  | some ⟨.symlink, _⟩ => "symlink"
  | none => "?"

/-- The table of all places in order. -/
def dump (m : Memory) : String :=
  "\n" ++ row "inode" "type" "path" ++
    String.join (m.index.entries.map fun e =>
      row (toString e.number) (kindText (m.nodes.get? e.number)) (Utf8.display e.key.path.bytes))

end ConfinedFs.Memory
