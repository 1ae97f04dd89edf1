import RelationAlgebra.Atom

/-!
# Bindings

Every slot of an operand carries a binding. A variable makes the slot an output column and ties it
to all other slots with the same variable, in any operand of the same combinator; a literal
restricts the slot to one atom; a wildcard leaves it free. Literal and wildcard slots are not part
of the output.

Plain relations are used through the identity binding, which ties slots of equal position. Their
variables are positional, hence never confused with a variable that somebody named `#0`.
-/

namespace RelationAlgebra

/-- The label of an output column. -/
inductive Var where
  | named (name : String)
  /-- The label of the slot `i` of an unbound operand. -/
  | index (i : Nat)
deriving DecidableEq, Repr

/-- How a variable is shown. -/
def Var.display : Var → String
  | named name => name
  | index i => s!"#{i}"

/-- What one slot of an operand is bound to. -/
inductive Binding where
  | var (v : Var)
  | wildcard
  | literal (a : Atom)
deriving DecidableEq, Repr

namespace Binding

/-- The variable of a slot. -/
def var? : Binding → Option Var
  | var v => some v
  | wildcard | literal _ => none

/-- The literal of a slot. -/
def literal? : Binding → Option Atom
  | literal a => some a
  | var _ | wildcard => none

/-- How a binding is shown. -/
def display : Binding → String
  | var v => v.display
  | wildcard => "*"
  | literal a => "'" ++ a.display ++ "'"

end Binding

/-- The bindings of one operand, one for each slot. -/
abbrev Slots := List Binding

namespace Slots

/-- Slot `i` bound to the positional variable `i`, however many slots there are. -/
def identity (arity : Nat) : Slots := (List.range arity).map fun i => .var (.index i)

/-- How many bindings a list can hold: a list takes 9223372036854775807 bytes at most, and each
binding takes 24 of them. That memory may end before that is left out here. -/
def capacity : Nat := 384307168202282325

/-- Slot `i` bound to the positional variable `i`, if a list can hold that many bindings. The
command line makes its operands with it. -/
def identity? (arity : Nat) : Option Slots :=
  if arity ≤ capacity then some (identity arity) else none

/-- Whether slot `i` is bound to the positional variable `i` throughout. -/
def isIdentity (slots : Slots) : Bool := slots == identity slots.length

/-- The literals, if every slot is bound to one. -/
def literals? (slots : Slots) : Option Tuple := slots.mapM Binding.literal?

/-- Whether every slot is bound to a literal. -/
def isAllLiteral (slots : Slots) : Bool := slots.all fun b => b.literal?.isSome

/-- The list with `v` at its end, unless it holds `v` already. -/
def addVariable (seen : List Var) (v : Var) : List Var :=
  if seen.contains v then seen else seen ++ [v]

/-- The distinct variables, in the order of their first slots. -/
def vars (slots : Slots) : List Var :=
  slots.foldl (fun seen b => (b.var?.map (addVariable seen)).getD seen) []

/-- How the bindings of an operand are shown. -/
def display (slots : Slots) : String :=
  "(" ++ ", ".intercalate (slots.map Binding.display) ++ ")"

end Slots

/-- An operand: something with slots, and what each slot is bound to. -/
structure Bound (α : Type) where
  relation : α
  slots : Slots
deriving Repr

namespace Bound

/-- The output columns of several operands: their distinct variables in the order of first
occurrence, operand by operand and slot by slot. -/
def correspondence {α : Type} (operands : List (Bound α)) : List Var :=
  ((operands.flatMap Bound.slots).filterMap Binding.var?).eraseDups

end Bound

end RelationAlgebra
