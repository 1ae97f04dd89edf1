import RelationAlgebra.Text.Glyph

/-!
# Quoted texts

A text between quotes, in a form that shows every character: what would end the text or could not be
seen is written as an escape.
-/

namespace RelationAlgebra.Text

/-- How a character is written between quotes. -/
def escape (c : Char) : List Char :=
  if c = '\x00' then ['\\', '0']
  else if c = '\t' then ['\\', 't']
  else if c = '\r' then ['\\', 'r']
  else if c = '\n' then ['\\', 'n']
  else if c = '\\' then ['\\', '\\']
  else if c = '"' then ['\\', '"']
  else if hasGlyph c then [c]
  else ['\\', 'u', '{'] ++ Nat.toDigits 16 c.toNat ++ ['}']

/-- A text between quotes. -/
def quoted (s : String) : String := String.ofList ('"' :: s.toList.flatMap escape ++ ['"'])

end RelationAlgebra.Text
