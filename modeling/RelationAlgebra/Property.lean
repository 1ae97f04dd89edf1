/-!
# Declared properties of binary relations

A binary relation may declare structural properties. Irreflexivity and asymmetry are guards: they
restrict which pairs may be added. Reflexivity, symmetry and transitivity are inducers: they widen
the membership test beyond the stored pairs.
-/

namespace RelationAlgebra

/-- A structural property of a binary relation. -/
inductive Property where
  | reflexive
  | irreflexive
  | symmetric
  | asymmetric
  | transitive
deriving DecidableEq, Repr

namespace Property

/-- All properties, in the order in which they are listed and written. -/
def all : List Property := [reflexive, irreflexive, symmetric, asymmetric, transitive]

/-- The name of a property, in messages and in datasets. -/
def name : Property → String
  | reflexive => "reflexive"
  | irreflexive => "irreflexive"
  | symmetric => "symmetric"
  | asymmetric => "asymmetric"
  | transitive => "transitive"

/-- The property of a given name. -/
def ofName? (s : String) : Option Property := all.find? fun p => p.name = s

end Property

/-- The properties that a binary relation declares. -/
structure PropertySet where
  reflexive : Bool := false
  irreflexive : Bool := false
  symmetric : Bool := false
  asymmetric : Bool := false
  transitive : Bool := false
deriving DecidableEq, Repr, Inhabited

namespace PropertySet

/-- Whether the set declares a property. -/
def declares (ps : PropertySet) : Property → Bool
  | .reflexive => ps.reflexive
  | .irreflexive => ps.irreflexive
  | .symmetric => ps.symmetric
  | .asymmetric => ps.asymmetric
  | .transitive => ps.transitive

/-- The set that declares just what a predicate holds of. -/
def ofPredicate (p : Property → Bool) : PropertySet where
  reflexive := p .reflexive
  irreflexive := p .irreflexive
  symmetric := p .symmetric
  asymmetric := p .asymmetric
  transitive := p .transitive

/-- The set of the listed properties. -/
def ofList (properties : List Property) : PropertySet := ofPredicate properties.contains

/-- The declared properties, in their fixed order. -/
def toList (ps : PropertySet) : List Property := Property.all.filter ps.declares

/-- Whether nothing is declared. -/
def isEmpty (ps : PropertySet) : Bool := decide (ps = {})

/-- How a set is shown: its names, or a dash if there are none. -/
def display (ps : PropertySet) : String :=
  if ps.isEmpty then "-" else ", ".intercalate (ps.toList.map Property.name)

/-- Two declared properties that exclude each other: reflexive with irreflexive first, then
symmetric with asymmetric. -/
def conflict? (ps : PropertySet) : Option (Property × Property) :=
  if ps.reflexive && ps.irreflexive then some (.reflexive, .irreflexive)
  else if ps.symmetric && ps.asymmetric then some (.symmetric, .asymmetric)
  else none

@[simp]
theorem declares_ofPredicate (p : Property → Bool) (q : Property) :
    (ofPredicate p).declares q = p q := by
  cases q <;> rfl

@[simp]
theorem ofPredicate_declares (ps : PropertySet) : ofPredicate ps.declares = ps := rfl

theorem mem_toList {ps : PropertySet} {q : Property} : q ∈ ps.toList ↔ ps.declares q = true := by
  cases q <;> simp [toList, Property.all]

end PropertySet

end RelationAlgebra
