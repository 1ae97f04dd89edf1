/-!
# Lines

A line ends at a line feed; a carriage return right before the line feed belongs to the end of the
line. A carriage return anywhere else is an ordinary character.
-/

namespace RelationAlgebra.Text

/-- The characters up to the end of the first line. -/
def untilLineEnd : List Char → List Char
  | [] => []
  | '\n' :: _ => []
  | '\r' :: '\n' :: _ => []
  | c :: cs => c :: untilLineEnd cs

/-- The first line of a text, without its end. -/
def firstLine (s : String) : String := String.ofList (untilLineEnd s.toList)

end RelationAlgebra.Text
