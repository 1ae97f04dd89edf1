import RelationAlgebra.Relation

/-!
# Derived relations

Which operands a combinator takes. Union and intersection take any number of bound relations but
none, the complement takes one. Composition and converse work on whole binary relations: their
operands must have two slots and the identity binding.
-/

namespace RelationAlgebra.Relation

/-- The relation of an operand that must be a plain binary relation. -/
def binaryOperand (combinator : Combinator) (v : View) : Except RelationError Relation :=
  if v.relation.arity ≠ 2 then
    .error (.unsupportedCombinator combinator (.notBinary v.relation.name v.relation.arity))
  else if !v.slots.isIdentity then
    .error (.unsupportedCombinator combinator (.bound v.display))
  else .ok v.relation

/-- The relation that a combinator builds of its operands, under the number `id`. A complement is
taken in the named registry. -/
def derive (id : Nat) (combinator : Combinator) (operands : List View) (registry : String) :
    Except RelationError Relation :=
  let refuse {α : Type} (fault : OperandFault) : Except RelationError α :=
    .error (.unsupportedCombinator combinator fault)
  match combinator, operands with
  | .union, [] | .intersection, [] => refuse .missing
  | .union, operands => .ok (union id operands)
  | .intersection, operands => .ok (intersection id operands)
  | .complement, [operand] => .ok (complement id operand registry)
  | .composition, [first, second] => do
    let first ← binaryOperand combinator first
    let second ← binaryOperand combinator second
    return composition id first second
  | .converse, [operand] => return converse id (← binaryOperand combinator operand)
  | .complement, operands | .converse, operands => refuse (.count 1 operands.length)
  | .composition, operands => refuse (.count 2 operands.length)

end RelationAlgebra.Relation
