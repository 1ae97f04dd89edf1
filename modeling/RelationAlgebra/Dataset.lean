import RelationAlgebra.Atom
import RelationAlgebra.Property

/-!
# Datasets

A dataset declares stored relations and lists tuples for them. Several declarations may name the
same relation.
-/

namespace RelationAlgebra

/-- A tuple as it is written in a dataset. -/
inductive Entry where
  /-- A list of atoms. -/
  | row (atoms : List Atom)
  /-- One atom, which stands for the tuple of that atom. -/
  | bare (atom : Atom)
deriving DecidableEq, Repr

/-- The tuple that an entry stands for. -/
def Entry.tuple : Entry → Tuple
  | row atoms => atoms
  | bare atom => [atom]

/-- A declaration of a relation, with tuples for it. -/
structure Declaration where
  name : String
  arity : Nat
  properties : PropertySet := {}
  entries : List Entry := []
deriving DecidableEq, Repr

/-- A list of declarations. -/
structure Dataset where
  relations : List Declaration := []
deriving DecidableEq, Repr

end RelationAlgebra
