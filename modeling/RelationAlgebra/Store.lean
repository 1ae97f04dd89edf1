import RelationAlgebra.Association
import RelationAlgebra.Derivation

/-!
# Stores

A store holds what changes: the rows of the stored relations and the registries. Every relation is
given a number when it is made, and numbers are never used again. A registry is a list of stored
relations in the order in which they were registered; names need not differ. A registry that was
never written is empty.

Operations that may fail give the new store only where they succeed, so a failure changes nothing.
-/

namespace RelationAlgebra

/-- The rows of the stored relations, and the registries. -/
structure Store where
  /-- The number of the next relation. -/
  next : Nat := 0
  /-- The rows of the stored relations, by number. -/
  extensions : List (Nat × Extension) := []
  /-- The registries, by name. -/
  registries : List (String × List Base) := []
deriving Repr

namespace Store

/-- The store in which nothing was made yet. -/
def empty : Store := {}

/-- The rows of a stored relation. -/
def extension (s : Store) (b : Base) : Extension :=
  (s.extensions.lookup b.id).getD (.empty b.arity)

/-- The stored relations of a registry. -/
def registry (s : Store) (name : String) : List Base := (s.registries.lookup name).getD []

/-- The first relation of a given name in a registry. -/
def find? (s : Store) (registry name : String) : Option Base :=
  (s.registry registry).find? fun b => b.name = name

/-- The relations of a given arity in a registry. -/
def ofArity (s : Store) (registry : String) (arity : Nat) : List Base :=
  (s.registry registry).filter fun b => b.arity = arity

/-- What a complement is taken in: the rows of all relations of a given arity in a registry, that
numbered `id` left out. -/
def ambient (s : Store) (registry : String) (arity id : Nat) : Extension :=
  ((s.ofArity registry arity).filter fun b => b.id ≠ id).foldl
    (fun x b => x.pushAll (s.extension b).rows) (.empty arity)

/-! ## Making relations -/

/-- The store with rows for a new stored relation. -/
def create (s : Store) (schema : Schema) (x : Extension) : Base × Store :=
  ({ schema with id := s.next },
   { s with
      next := s.next + 1
      extensions := Association.set s.next x s.extensions })

/-- The store with a relation at the end of a registry. -/
def register (s : Store) (registry : String) (b : Base) : Store :=
  { s with registries := Association.set registry (s.registry registry ++ [b]) s.registries }

/-- A new stored relation without rows, in a registry if one is named. -/
def declare (s : Store) (registry : Option String) (schema : Schema) : Base × Store :=
  let (b, s) := s.create schema (.empty schema.arity)
  match registry with
  | some name => (b, s.register name b)
  | none => (b, s)

/-- A new derived relation. -/
def derive (s : Store) (combinator : Combinator) (operands : List View) (registry : String) :
    Except RelationError (Relation × Store) := do
  let r ← Relation.derive s.next combinator operands registry
  return (r, { s with next := s.next + 1 })

/-! ## Insertion -/

/-- The store with tuples admitted to a stored relation in turn, all of them or none. -/
def addAll (s : Store) (r : Relation) (tuples : List Tuple) : Except RelationError Store :=
  match r with
  | .base b => do
    let x ← b.insertAll (s.extension b) tuples
    return { s with extensions := Association.set b.id x s.extensions }
  | derived => .error (.readOnly derived.name)

/-- The store with one tuple admitted to a stored relation. -/
def add (s : Store) (r : Relation) (t : Tuple) : Except RelationError Store := s.addAll r [t]

/-- Whether the pair `(a, b)` could be added to a stored relation. -/
def canAdd (s : Store) (r : Base) (a b : Atom) : Except RelationError Unit :=
  r.properties.checkInsert r.name a b (s.extension r)

end Store

end RelationAlgebra
