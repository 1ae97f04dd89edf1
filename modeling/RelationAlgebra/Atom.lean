import RelationAlgebra.Decimal

/-!
# Atoms and tuples

Relations range over one untyped universe of atoms: truth values, 64-bit integers and texts. The
algebra only ever asks whether two atoms are equal. Their order (truth values, then integers, then
texts, the last by code points) serves sorted listings and nothing else.

Atoms of different kinds are different even where they are shown alike: the integer `1` and the text
`1` have the same display.
-/

namespace RelationAlgebra

/-- A value of the untyped universe. -/
inductive Atom where
  | bool (b : Bool)
  | int (i : Int64)
  | text (s : String)
deriving DecidableEq, Ord, Repr

namespace Atom

/-- How an atom is shown: a text as it stands, without quotes. -/
def display : Atom → String
  | bool true => "true"
  | bool false => "false"
  | int i => String.ofList (Decimal.write i.toInt)
  | text s => s

/-- The integer that a word of a command line spells, if it spells one of 64 bits. -/
def integerWord? (word : String) : Option Int64 :=
  (Decimal.parse? word.toList).bind Decimal.int64?

/-- The narrowest atom that a word of a command line can stand for. -/
def ofWord (word : String) : Atom :=
  match integerWord? word with
  | some i => int i
  | none =>
    if word = "true" then bool true
    else if word = "false" then bool false
    else text word

end Atom

/-- A finite sequence of atoms; the rows of a relation are tuples of its arity. -/
abbrev Tuple := List Atom

namespace Tuple

/-- How a tuple is shown: its atoms between parentheses. -/
def display (t : Tuple) : String :=
  "(" ++ ", ".intercalate (t.map Atom.display) ++ ")"

/-- The distinct tuples of a list in ascending order, a tuple before its extensions. -/
def sorted (tuples : List Tuple) : List Tuple :=
  tuples.eraseDups.mergeSort fun s t => (compare s t).isLE

end Tuple

end RelationAlgebra
