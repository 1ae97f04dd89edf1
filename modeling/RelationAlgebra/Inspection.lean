import RelationAlgebra.Relation
import RelationAlgebra.Text.Quoted

/-!
# Inspection

What a relation or a registry is, for whoever looks into a program that uses them: a record with the
name quoted, so that names which look alike can be told apart.
-/

namespace RelationAlgebra

/-- Name, arity and kind of a relation. -/
def Relation.inspect (r : Relation) : String :=
  s!"Relation \x7b name: {Text.quoted r.name}, arity: {r.arity}, derived: {r.isDerived} \x7d"

/-- The number of relations in a registry. -/
def inspectRegistry (relations : List Base) : String :=
  s!"RelationRegistry \x7b relations: {relations.length} \x7d"

end RelationAlgebra
