import RelationAlgebra.Reading
import RelationAlgebra.Store

/-!
# Evaluation

What a relation says over a store. The reading of a derived relation is put together from the
readings of its operands, so evaluation is recursion on the tree of the relation and always ends,
for complements of complements too: what a complement is taken in is made of stored rows only.
-/

namespace RelationAlgebra.Store

mutual

/-- The reading of a relation over a store. -/
def read (s : Store) : Relation → Reading
  | .base b => .stored b.properties (s.extension b)
  | .union _ operands => .union (Bound.correspondence operands) (s.readAll operands)
  | .intersection _ operands => .join (Bound.correspondence operands) (s.readAll operands)
  | .complement _ operand registry =>
    .complement (Bound.correspondence [operand])
      (s.ambient registry operand.relation.arity operand.relation.id) (s.readBound operand)
  | .composition _ first second =>
    .join Relation.compositionOutput
      [⟨s.read first, [.var (.index 0), .var (.index 1)]⟩,
       ⟨s.read second, [.var (.index 1), .var (.index 2)]⟩]
  | .converse _ relation =>
    .join Relation.converseOutput [⟨s.read relation, [.var (.index 0), .var (.index 1)]⟩]

/-- The reading of an operand, under the bindings of the operand. -/
def readBound (s : Store) : Bound Relation → Bound Reading
  | ⟨relation, slots⟩ => ⟨s.read relation, slots⟩

/-- The readings of several operands. -/
def readAll (s : Store) : List (Bound Relation) → List (Bound Reading)
  | [] => []
  | operand :: operands => s.readBound operand :: s.readAll operands

end

@[simp]
theorem readAll_eq_map (s : Store) (operands : List (Bound Relation)) :
    s.readAll operands = operands.map s.readBound := by
  induction operands with
  | nil => rfl
  | cons operand operands ih => simp [readAll, ih]

/-- The rows of a relation. -/
def rows (s : Store) (r : Relation) : Extension := (s.read r).extension

/-- Whether a relation accepts a tuple; never one of another length than its arity. -/
def accepts (s : Store) (r : Relation) (t : Tuple) : Bool := (s.read r).accepts t

/-- What comes of calling a relation. -/
inductive Call where
  /-- All slots were literals, and the relation was asked for the tuple. -/
  | answer (accepted : Bool)
  /-- Some slot was left open. -/
  | view (v : View)

/-- Calls a relation: a membership test if all slots are literals, a bound relation otherwise. -/
def call (s : Store) (r : Relation) (slots : Slots) : Except RelationError Call := do
  let v ← r.bind slots
  return match v.slots.literals? with
    | some t => .answer (s.accepts r t)
    | none => .view v

end RelationAlgebra.Store
