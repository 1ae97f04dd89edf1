import RelationAlgebra.Atom
import RelationAlgebra.Combinator
import RelationAlgebra.Property

/-!
# Why an operation of the algebra fails

Queries never fail; construction, binding and insertion may. Each cause carries what its message
names.
-/

namespace RelationAlgebra

/-- Why a combinator refuses its operands. -/
inductive OperandFault where
  /-- No operand at all where at least one is needed. -/
  | missing
  /-- Another number of operands than the `expected` one or two. -/
  | count (expected found : Nat)
  /-- An operand that should be binary and is not. -/
  | notBinary (relation : String) (arity : Nat)
  /-- An operand whose slots are bound where the plain relation is needed, as it is shown. -/
  | bound (view : String)
deriving DecidableEq, Repr

/-- Why an operation of the algebra fails. -/
inductive RelationError where
  /-- A tuple, or a list of bindings, of the wrong length. -/
  | arityMismatch (relation : String) (expected found : Nat)
  /-- Declared properties that exclude each other. -/
  | propertyConflict (relation : String) (first second : Property)
  /-- A pair that a declared guard keeps out. -/
  | propertyViolation (relation : String) (property : Property) (pair : Tuple)
  /-- Operands that a combinator does not take. -/
  | unsupportedCombinator (combinator : Combinator) (fault : OperandFault)
  /-- A relation declared with no slots. -/
  | invalidArity (relation : String)
  /-- An insertion into a derived relation. -/
  | readOnly (relation : String)
deriving DecidableEq, Repr

/-- The wording of a fault. -/
def OperandFault.message : OperandFault → String
  | missing => "needs at least one operand"
  | count 1 found => s!"takes exactly one operand, got {found}"
  | count _ found => s!"takes exactly two operands, got {found}"
  | notBinary relation arity => s!"`{relation}` has arity {arity}, expected a binary relation"
  | bound view => s!"`{view}` is bound; pass the relation itself"

/-- The wording of an error. -/
def RelationError.message : RelationError → String
  | arityMismatch relation expected found =>
    s!"relation `{relation}` has arity {expected}, got {found} value(s)"
  | propertyConflict relation first second =>
    s!"relation `{relation}` cannot be both {first.name} and {second.name}"
  | propertyViolation relation property pair =>
    s!"adding {pair.display} to `{relation}` would break its {property.name} property"
  | unsupportedCombinator combinator fault =>
    s!"{combinator.name} is not applicable: {fault.message}"
  | invalidArity relation => s!"relation `{relation}` must have a positive arity"
  | readOnly relation => s!"relation `{relation}` is derived and cannot be extended"

end RelationAlgebra
