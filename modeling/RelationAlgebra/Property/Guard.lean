import RelationAlgebra.Extension

/-!
# Guards

What keeps a declaration or a pair out: two properties that exclude each other, and a pair that the
declared guards forbid beside the pairs already stored.
-/

namespace RelationAlgebra.PropertySet

/-- Refuses properties that exclude each other. -/
def validate (ps : PropertySet) (relation : String) : Except RelationError Unit :=
  match ps.conflict? with
  | some (first, second) => .error (.propertyConflict relation first second)
  | none => .ok ()

/-- The guard that the pair `(a, b)` would break beside the rows of `x`, irreflexivity first. -/
def brokenGuard? (ps : PropertySet) (a b : Atom) (x : Extension) : Option Property :=
  if ps.irreflexive && a == b then some .irreflexive
  else if ps.asymmetric && x.contains [b, a] then some .asymmetric
  else none

/-- Refuses a pair that breaks a declared guard. -/
def checkInsert (ps : PropertySet) (relation : String) (a b : Atom) (x : Extension) :
    Except RelationError Unit :=
  match ps.brokenGuard? a b x with
  | some property => .error (.propertyViolation relation property [a, b])
  | none => .ok ()

end RelationAlgebra.PropertySet
