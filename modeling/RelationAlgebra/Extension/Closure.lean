import RelationAlgebra.Extension

/-!
# Reachability over stored pairs

Whether one atom leads to another along a non-empty chain of stored pairs, decided by a
breadth-first search. Every atom is queued at most once, and only second components are queued, so
as many rounds as there are distinct second components always suffice.
-/

namespace RelationAlgebra

/-- The state of a breadth-first search. -/
structure Frontier where
  /-- Every atom queued so far. -/
  visited : List Atom
  /-- The atoms whose successors are still to be looked up, oldest first. -/
  queue : List Atom
deriving Repr

namespace Frontier

/-- The state before anything is queued. -/
def empty : Frontier := ⟨[], []⟩

/-- Queues an atom, unless it was queued before. -/
def visit (f : Frontier) (a : Atom) : Frontier :=
  if f.visited.contains a then f else ⟨f.visited ++ [a], f.queue ++ [a]⟩

/-- Queues the listed atoms in turn. -/
def visitAll (f : Frontier) (atoms : List Atom) : Frontier := atoms.foldl visit f

end Frontier

namespace Extension

/-- The second components of the rows that begin with `a`. -/
def successors (x : Extension) (a : Atom) : List Atom := (x.valuesAt 0 a).filterMap (·[1]?)

/-- The distinct second components. -/
def targets (x : Extension) : List Atom := (x.rows.filterMap (·[1]?)).eraseDups

/-- One round: the oldest atom of the queue gives way to those of its successors that were never
queued. -/
def expand (x : Extension) (f : Frontier) : Frontier :=
  match f.queue with
  | [] => f
  | a :: queue => { f with queue }.visitAll (x.successors a)

/-- The state in which the successors of `a` are queued. -/
def opening (x : Extension) (a : Atom) : Frontier := Frontier.empty.visitAll (x.successors a)

/-- Whether `goal` comes to the front of the queue within some rounds from a given state. -/
def finds (x : Extension) (goal : Atom) : (rounds : Nat) → Frontier → Bool
  | 0, _ => false
  | rounds + 1, f =>
    match f.queue with
    | [] => false
    | a :: _ => a == goal || x.finds goal rounds (x.expand f)

/-- Whether `b` is reached from `a` by one stored pair or more. Only pairs are edges. -/
def reachable (x : Extension) (a b : Atom) : Bool :=
  x.arity == 2 && x.finds b x.targets.length (x.opening a)

end Extension

end RelationAlgebra
