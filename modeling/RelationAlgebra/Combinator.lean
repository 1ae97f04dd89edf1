/-!
# The five combinators

The names of the operators that build a relation from bound relations.
-/

namespace RelationAlgebra

/-- An operator of the algebra. -/
inductive Combinator where
  | union
  | intersection
  | complement
  | composition
  | converse
deriving DecidableEq, Repr

namespace Combinator

/-- All combinators. -/
def all : List Combinator := [union, intersection, complement, composition, converse]

/-- The name of a combinator, in messages and on the command line. -/
def name : Combinator → String
  | union => "union"
  | intersection => "intersection"
  | complement => "complement"
  | composition => "composition"
  | converse => "converse"

/-- The combinator of a given name. -/
def ofName? (s : String) : Option Combinator := all.find? fun c => c.name = s

end Combinator

end RelationAlgebra
