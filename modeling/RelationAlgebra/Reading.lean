import RelationAlgebra.Matching
import RelationAlgebra.Property.Inducer

/-!
# Readings

A reading is all that a relation says at one moment: the rows that it enumerates, which tuples it
lists, and which tuples it accepts. The three need not coincide. A stored relation lists its rows
and accepts what its inducers add besides; a derived relation accepts what it lists, but a union may
list tuples that it does not enumerate.

The combinators are functions on readings. They share one search. It goes through the operands in
turn and extends an assignment: an operand whose slots are all settled is asked whether it lists its
row, any other operand is walked row by row. Rows are always enumerated or listed ones, never
induced pairs; only the complement asks what its operand accepts.
-/

namespace RelationAlgebra

/-- What a relation says at one moment. -/
structure Reading where
  /-- The rows, computed on demand. -/
  rows : Thunk Extension
  /-- Whether a tuple is listed, as joins ask it. -/
  lists : Tuple → Bool
  /-- Whether a tuple is accepted, as a membership test asks it. -/
  accepts : Tuple → Bool

namespace Reading

/-- The enumerated rows. -/
def extension (r : Reading) : Extension := r.rows.get

/-! ## Stored relations -/

/-- The reading of a stored relation with the given properties and rows. A tuple of another length
is never accepted. -/
def stored (properties : PropertySet) (x : Extension) : Reading where
  rows := Thunk.pure x
  lists := x.contains
  accepts t := t.length == x.arity &&
    (x.contains t || match t with
      | [a, b] => properties.induces a b x
      | _ => false)

/-! ## The search -/

section Search

variable {σ : Type}

/-- Offers each match of `rows` with the bindings to `visit`, until `visit` is done. -/
def walk (visit : Assignment → σ → ForInStep σ) (slots : Slots) (α : Assignment) :
    List Tuple → σ → ForInStep σ
  | [], s => .yield s
  | row :: rows, s =>
    match α.unify slots row with
    | none => walk visit slots α rows s
    | some β =>
      match visit β s with
      | .done s => .done s
      | .yield s => walk visit slots α rows s

/-- Offers each assignment that extends `α` and fits a row of every operand to `visit`, until
`visit` is done. -/
def search (visit : Assignment → σ → ForInStep σ) :
    List (Bound Reading) → Assignment → σ → ForInStep σ
  | [], α, s => visit α s
  | operand :: operands, α, s =>
    match α.row? operand.slots with
    | some row => if operand.relation.lists row then search visit operands α s else .yield s
    | none => walk (search visit operands) operand.slots α operand.relation.extension.rows s

end Search

/-- Whether some assignment that extends `α` fits a row of every operand. -/
def satisfiable (operands : List (Bound Reading)) (α : Assignment) : Bool :=
  (search (fun _ _ => .done true) operands α false).value

/-- The extension with the output tuple of an assignment pushed. -/
def emit (output : List Var) (x : Extension) (α : Assignment) : Extension :=
  match α.project? output with
  | some t => x.push t
  | none => x

/-! ## The combinators -/

/-- The reading of a derived relation with the given output columns and rows, of which a tuple is
listed if its assignment to the columns is `witnessed`. -/
def derived (output : List Var) (rows : Thunk Extension) (witnessed : Assignment → Bool) :
    Reading :=
  let lists (t : Tuple) := t.length == output.length && witnessed (.ofOutput output t)
  { rows, lists, accepts := lists }

/-- What all operands hold together, with the given output columns. -/
def join (output : List Var) (operands : List (Bound Reading)) : Reading :=
  derived output
    (.mk fun _ =>
      (search (fun α x => .yield (emit output x α)) operands [] (.empty output.length)).value)
    (satisfiable operands)

/-- The distinct atoms in the rows of the operands. -/
def activeDomain (operands : List (Bound Reading)) : List Atom :=
  (operands.flatMap fun operand => operand.relation.extension.atoms).eraseDups

/-- The extension with the rows of one operand of a union pushed. Output variables that the operand
does not mention range over `domain`. -/
def emitOperand (output : List Var) (domain : List Atom) (x : Extension)
    (operand : Bound Reading) : Extension :=
  let mentioned := operand.slots.vars
  let missing := output.filter fun v => !mentioned.contains v
  let emitAll (α : Assignment) (x : Extension) :=
    (Assignment.completions domain missing α).foldl (emit output) x
  (search (fun α x => .yield (emitAll α x)) [operand] [] x).value

/-- What some operand holds. A tuple is listed as soon as one operand fits, whatever its atoms in
the columns that this operand does not mention; enumerated are the tuples over the active domain. -/
def union (output : List Var) (operands : List (Bound Reading)) : Reading :=
  derived output
    (.mk fun _ =>
      operands.foldl (emitOperand output (activeDomain operands)) (.empty output.length))
    (fun α => operands.any fun operand => satisfiable [operand] α)

/-- What the ambient rows hold and the operand does not accept. -/
def complement (output : List Var) (ambient : Extension) (operand : Bound Reading) : Reading :=
  let rejects (row : Tuple) := !operand.relation.accepts row
  derived output
    (.mk fun _ =>
      ambient.rows.foldl
        (fun x row =>
          match Assignment.unify [] operand.slots row with
          | some α => if rejects row then emit output x α else x
          | none => x)
        (.empty output.length))
    (fun α =>
      match α.row? operand.slots with
      | some row => ambient.contains row && rejects row
      | none => ambient.rows.any fun row =>
          (α.unify operand.slots row).isSome && rejects row)

end Reading

end RelationAlgebra
