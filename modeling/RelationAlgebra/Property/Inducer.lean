import RelationAlgebra.Extension.Closure

/-!
# Inducers

The rules that widen the membership test of a binary relation. Each rule looks at the stored pairs
alone, never at pairs that another rule adds; a declared set of rules accepts what any one of them
accepts.
-/

namespace RelationAlgebra

/-- A rule that widens membership. -/
inductive Inducer where
  | reflexive
  | symmetric
  | transitive
deriving DecidableEq, Repr

namespace Inducer

/-- All rules, in the order in which they are asked. -/
def all : List Inducer := [reflexive, symmetric, transitive]

/-- The property that declares a rule. -/
def property : Inducer → Property
  | reflexive => .reflexive
  | symmetric => .symmetric
  | transitive => .transitive

/-- The rule of a given name. -/
def ofName? (s : String) : Option Inducer := all.find? fun r => r.property.name = s

/-- Whether the rule accepts the pair `(a, b)` over the rows of `x`. -/
def holds (x : Extension) (a b : Atom) : Inducer → Bool
  | reflexive => a == b
  | symmetric => x.contains [b, a]
  | transitive => x.reachable a b

end Inducer

namespace PropertySet

/-- The declared rules. -/
def inducers (ps : PropertySet) : List Inducer := Inducer.all.filter fun r => ps.declares r.property

/-- Whether some declared rule accepts the pair `(a, b)` over the rows of `x`. -/
def induces (ps : PropertySet) (a b : Atom) (x : Extension) : Bool :=
  ps.inducers.any fun r => r.holds x a b

end PropertySet

end RelationAlgebra
