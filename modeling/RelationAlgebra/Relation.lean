import RelationAlgebra.Binding
import RelationAlgebra.Property.Guard

/-!
# Relations

A relation is stored or derived. A stored relation is known by its number; its rows live in a store
and grow there. A derived relation holds no rows. It is the tree of the operands that it was built
from, and its rows are computed from theirs whenever they are asked for, so it keeps up with stored
relations that grow later.

Every relation, stored or derived, has a number of its own. Two relations are the same only if their
numbers agree: two unions of the same operands are different relations, and so are two stored
relations of the same name. Name, arity and declared properties never depend on a store.
-/

namespace RelationAlgebra

/-- What is fixed about a stored relation when it is declared. -/
structure Schema where
  name : String
  arity : Nat
  properties : PropertySet := {}
deriving DecidableEq, Repr

namespace Schema

/-- The schema of a relation without declared properties. -/
def plain (name : String) (arity : Nat) : Except RelationError Schema :=
  if arity = 0 then .error (.invalidArity name) else .ok { name, arity }

/-- The schema of a binary relation with declared properties. -/
def binary (name : String) (properties : PropertySet) : Except RelationError Schema := do
  properties.validate name
  return { name, arity := 2, properties }

/-- Refuses a pair that breaks a declared guard; tuples of other lengths meet no guard. -/
def checkGuards (schema : Schema) (x : Extension) : Tuple → Except RelationError Unit
  | [a, b] => schema.properties.checkInsert schema.name a b x
  | _ => .ok ()

/-- Inserts one tuple: the guards look at it first, and its length comes next. -/
def insert (schema : Schema) (x : Extension) (t : Tuple) : Except RelationError Extension := do
  schema.checkGuards x t
  x.insert schema.name t

/-- Inserts tuples in turn, each beside those before it; one refusal refuses them all. -/
def insertAll (schema : Schema) (x : Extension) (tuples : List Tuple) :
    Except RelationError Extension :=
  tuples.foldlM schema.insert x

end Schema

/-- A stored relation. -/
structure Base extends Schema where
  /-- The number by which stores know the relation. -/
  id : Nat
deriving DecidableEq, Repr

/-- A stored or derived relation. -/
inductive Relation where
  /-- A stored relation. -/
  | base (b : Base)
  /-- What some operand holds. -/
  | union (id : Nat) (operands : List (Bound Relation))
  /-- What all operands hold together. -/
  | intersection (id : Nat) (operands : List (Bound Relation))
  /-- What the other relations of a registry hold and the operand does not accept. -/
  | complement (id : Nat) (operand : Bound Relation) (registry : String)
  /-- The pairs `(a, c)` with `(a, b)` in the first relation and `(b, c)` in the second. -/
  | composition (id : Nat) (first second : Relation)
  /-- The pairs `(b, a)` with `(a, b)` in the relation. -/
  | converse (id : Nat) (relation : Relation)

/-- A relation with its slots bound. -/
abbrev View := Bound Relation

namespace Relation

/-- Induction on a relation, with all operands of a union or an intersection at once. -/
@[elab_as_elim]
theorem induction {motive : Relation → Prop}
    (base : ∀ b, motive (.base b))
    (union : ∀ id views, (∀ v ∈ views, motive v.relation) → motive (.union id views))
    (intersection : ∀ id views, (∀ v ∈ views, motive v.relation) → motive (.intersection id views))
    (complement : ∀ id v registry, motive v.relation → motive (.complement id v registry))
    (composition : ∀ id first second, motive first → motive second →
      motive (.composition id first second))
    (converse : ∀ id relation, motive relation → motive (.converse id relation))
    (r : Relation) : motive r :=
  @Relation.rec motive (fun views => ∀ v ∈ views, motive v.relation) (fun v => motive v.relation)
    base union intersection complement composition converse
    (by simp) (fun _ _ hv hvs => List.forall_mem_cons.mpr ⟨hv, hvs⟩) (fun _ _ hr => hr) r

/-- The number of a relation. -/
def id : Relation → Nat
  | base b => b.id
  | union id _ | intersection id _ | complement id _ _ | composition id _ _ | converse id _ => id

/-- Whether two relations are one and the same. -/
def same (r s : Relation) : Bool := r.id == s.id

/-- Whether a relation is derived. -/
def isDerived : Relation → Bool
  | base _ => false
  | _ => true

/-- The declared properties; derived relations have none. -/
def properties : Relation → PropertySet
  | base b => b.properties
  | _ => {}

/-- The variables that label the output columns of a composition. -/
def compositionOutput : List Var := [.index 0, .index 2]

/-- The variables that label the output columns of a converse. -/
def converseOutput : List Var := [.index 1, .index 0]

/-- The number of slots: for a derived relation, of its output columns. -/
def arity : Relation → Nat
  | base b => b.arity
  | union _ operands | intersection _ operands => (Bound.correspondence operands).length
  | complement _ operand _ => (Bound.correspondence [operand]).length
  | composition .. => compositionOutput.length
  | converse .. => converseOutput.length

mutual

/-- The name of a relation, put together from those of its operands if it is derived. -/
def name : Relation → String
  | base b => b.name
  | union _ operands => "_or_".intercalate (operandNames operands)
  | intersection _ operands => "_and_".intercalate (operandNames operands)
  | complement _ operand _ => "not_" ++ operandName operand
  | composition _ first second => first.name ++ "_then_" ++ second.name
  | converse _ relation => "converse_of_" ++ relation.name

/-- The name of the relation of an operand. -/
def operandName : Bound Relation → String
  | ⟨relation, _⟩ => relation.name

/-- The names of the relations of the operands. -/
def operandNames : List (Bound Relation) → List String
  | [] => []
  | operand :: operands => operandName operand :: operandNames operands

end

@[simp]
theorem operandNames_eq_map (operands : List (Bound Relation)) :
    operandNames operands = operands.map operandName := by
  induction operands with
  | nil => rfl
  | cons operand operands ih => simp [operandNames, ih]

/-- How a relation is shown: its name and its arity. -/
def display (r : Relation) : String := s!"{r.name}/{r.arity}"

/-- The relation with slot `i` bound to the positional variable `i`. -/
def identityView (r : Relation) : View := ⟨r, .identity r.arity⟩

/-- The relation with slot `i` bound to the positional variable `i`, if a list can hold the
bindings. -/
def identityView? (r : Relation) : Option View := (Slots.identity? r.arity).map (⟨r, ·⟩)

/-- The relation with its slots bound as listed, one binding for each. -/
def bind (r : Relation) (slots : Slots) : Except RelationError View :=
  if slots.length = r.arity then .ok ⟨r, slots⟩
  else .error (.arityMismatch r.name r.arity slots.length)

end Relation

/-- How a bound relation is shown. -/
def View.display (v : View) : String := v.relation.name ++ v.slots.display

end RelationAlgebra
