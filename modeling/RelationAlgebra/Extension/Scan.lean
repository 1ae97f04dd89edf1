import RelationAlgebra.Extension

/-!
# Lazy scans

A scan walks the rows of an extension as it was when the scan began, one matching row at a time.
Later growth of the relation does not reach it.
-/

namespace RelationAlgebra

/-- A walk over the rows that have `value` in the slot `position`. -/
structure Scan where
  /-- The rows not walked over yet. -/
  pending : List Tuple
  position : Nat
  value : Atom
deriving Repr

namespace Scan

/-- A scan at its beginning. -/
def start (x : Extension) (position : Nat) (value : Atom) : Scan := ⟨x.rows, position, value⟩

/-- Whether the scan yields a row. -/
def selects (s : Scan) (t : Tuple) : Bool := t[s.position]? == some s.value

/-- The next row, if one is left, and the scan behind it. -/
def next (s : Scan) : Option Tuple × Scan :=
  match s.pending.dropWhile fun t => !s.selects t with
  | [] => (none, { s with pending := [] })
  | t :: pending => (some t, { s with pending })

end Scan

end RelationAlgebra
