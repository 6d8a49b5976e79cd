import ConfinedFs.Text.Utf8
import ConfinedFs.Text.Graphic

/-!
Byte strings in quotation marks, as diagnostic texts show them. Characters
that can be shown stand for themselves, the others by a short escape or by
their number, and bytes outside of valid text by two hexadecimal digits each.
-/

namespace ConfinedFs.Text

/-- A character between quotation marks. The quotation mark and the escape
character themselves are escaped. -/
def escapeChar (c : Char) : String :=
  match c.toNat with
  | 0 => "\\0"
  | 9 => "\\t"
  | 10 => "\\n"
  | 13 => "\\r"
  | 34 => "\\\""
  | 92 => "\\\\"
  | n =>
    if isGraphic c then String.singleton c
    else "\\u\x7b" ++ String.ofList (Nat.toDigits 16 n) ++ "\x7d"

/-- A byte outside of valid text. -/
def escapeByte (b : UInt8) : String :=
  let digits := (Nat.toDigits 16 b.toNat).map Char.toUpper
  "\\x" ++ String.ofList (List.replicate (2 - digits.length) '0' ++ digits)

/-- A piece of a string between quotation marks. -/
def escapePiece : Utf8.Piece → String
  | .char c => escapeChar c
  | .invalid bytes => String.join (bytes.map escapeByte)

/-- The string in quotation marks. -/
def quoted (bytes : Bytes) : String :=
  "\"" ++ String.join ((Utf8.pieces bytes).map escapePiece) ++ "\""

end ConfinedFs.Text
