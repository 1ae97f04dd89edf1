import RelationAlgebra.Binding

/-!
# Matching rows against bindings

A combinator looks for assignments of atoms to variables under which its operands hold. An
assignment grows slot by slot: a row is matched against the bindings of an operand, a literal must
be met, a variable with a value must meet it again, and a variable without one takes the atom of its
slot.
-/

namespace RelationAlgebra

/-- A finite assignment of atoms to variables. -/
abbrev Assignment := List (Var × Atom)

namespace Assignment

/-- The value of a variable. -/
def get? (α : Assignment) (v : Var) : Option Atom := α.lookup v

/-- The assignment with a value for a variable that has none yet. -/
def assign (α : Assignment) (v : Var) (x : Atom) : Assignment := (v, x) :: α

/-- The assignment that gives each output variable the atom of its column. -/
def ofOutput (output : List Var) (t : Tuple) : Assignment := output.zip t

/-- The atom that a slot must hold, where the assignment settles it. -/
def slot? (α : Assignment) : Binding → Option Atom
  | .var v => α.get? v
  | .wildcard => none
  | .literal x => some x

/-- The one row that an operand can contribute, where the assignment settles all of its slots. -/
def row? (α : Assignment) (slots : Slots) : Option Tuple := slots.mapM α.slot?

/-- The assignment extended by matching a row against bindings, slot by slot. -/
def unify (α : Assignment) : Slots → Tuple → Option Assignment
  | .wildcard :: slots, _ :: row => α.unify slots row
  | .literal x :: slots, y :: row => if x = y then α.unify slots row else none
  | .var v :: slots, y :: row =>
    match α.get? v with
    | some x => if x = y then α.unify slots row else none
    | none => (α.assign v y).unify slots row
  | [], _ | _, [] => some α

/-- The tuple that an assignment gives for the output variables, if each has a value. -/
def project? (α : Assignment) (output : List Var) : Option Tuple := output.mapM α.get?

/-- The assignment extended to the listed variables in every way over a domain, the first variable
varying slowest. -/
def completions (domain : List Atom) : List Var → Assignment → List Assignment
  | [], α => [α]
  | v :: vs, α => domain.flatMap fun x => completions domain vs (α.assign v x)

end Assignment

end RelationAlgebra
