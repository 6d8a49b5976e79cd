import ConfinedFs.Text.Bytes

/-!
Reading a byte string as UTF-8. A string is cut into characters and maximal
invalid pieces; it is text exactly when there is no invalid piece.
-/

namespace ConfinedFs.Utf8

open ConfinedFs.Bytes

/-- A part of a byte string as a reader of UTF-8 sees it. -/
inductive Piece where
  | char (c : Char)
  | invalid (bytes : Bytes)
  deriving DecidableEq

/-- The beginning of a character of which `missing` more bytes are expected,
the next one between `low` and `high`. -/
structure Partial where
  seen : Bytes
  code : Nat
  missing : Nat
  low : Nat
  high : Nat

/-- What a byte in first position announces. -/
inductive Lead where
  | ascii (c : Char)
  | opens (start : Partial)
  | stray

/-- The bounds of the second byte exclude overlong forms, surrogates and code
points above the last one. -/
def lead (b : UInt8) : Lead :=
  let n := b.toNat
  if n < 0x80 then .ascii (Char.ofNat n)
  else if n < 0xC2 then .stray
  else if n < 0xE0 then .opens ⟨[b], n - 0xC0, 1, 0x80, 0xBF⟩
  else if n < 0xF0 then
    .opens ⟨[b], n - 0xE0, 2, if n = 0xE0 then 0xA0 else 0x80, if n = 0xED then 0x9F else 0xBF⟩
  else if n < 0xF5 then
    .opens ⟨[b], n - 0xF0, 3, if n = 0xF0 then 0x90 else 0x80, if n = 0xF4 then 0x8F else 0xBF⟩
  else .stray

/-- The pieces of a string, after the beginning of a character if one is
pending. -/
def piecesFrom : Option Partial → Bytes → List Piece
  | none, [] => []
  | some p, [] => [.invalid p.seen]
  | none, b :: rest =>
    match lead b with
    | .ascii c => .char c :: piecesFrom none rest
    | .opens p => piecesFrom (some p) rest
    | .stray => .invalid [b] :: piecesFrom none rest
  | some p, b :: rest =>
    if p.low ≤ b.toNat ∧ b.toNat ≤ p.high then
      let code := p.code * 64 + (b.toNat - 0x80)
      if p.missing = 1 then .char (Char.ofNat code) :: piecesFrom none rest
      else piecesFrom (some ⟨p.seen ++ [b], code, p.missing - 1, 0x80, 0xBF⟩) rest
    else
      .invalid p.seen ::
        match lead b with
        | .ascii c => .char c :: piecesFrom none rest
        | .opens q => piecesFrom (some q) rest
        | .stray => .invalid [b] :: piecesFrom none rest

/-- The characters and maximal invalid pieces of a string, in order. -/
def pieces (bytes : Bytes) : List Piece := piecesFrom none bytes

/-- The character a piece holds, if it is valid. -/
def Piece.char? : Piece → Option Char
  | .char c => some c
  | .invalid _ => none

/-- The text a string encodes, if it is valid. -/
def text? (bytes : Bytes) : Option String :=
  ((pieces bytes).mapM Piece.char?).map String.ofList

/-- The character shown for an invalid piece. -/
def replacement : Char := Char.ofNat 0xFFFD

/-- The text shown for a string: each invalid piece becomes one replacement
character. -/
def display (bytes : Bytes) : String :=
  String.ofList ((pieces bytes).map fun piece => piece.char?.getD replacement)

end ConfinedFs.Utf8
