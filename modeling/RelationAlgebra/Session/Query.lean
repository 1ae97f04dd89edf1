import RelationAlgebra.Inspection
import RelationAlgebra.Session

/-!
# Queries of a session

Questions that leave a session as it is.
-/

namespace RelationAlgebra

/-- A question to a session. Names stand for handles of the session. -/
inductive Query where
  /-- Whether a relation accepts a tuple. -/
  | test (relation : String) (tuple : Tuple)
  /-- Which of several tuples a relation accepts. -/
  | testAll (relation : String) (tuples : List Tuple)
  /-- The tuples among the candidates that a relation accepts. -/
  | filter (relation : String) (candidates : List Tuple)
  /-- A relation and the number of its rows. -/
  | summary (relation : String)
  /-- The rows of a relation. -/
  | rows (relation : String)
  /-- A relation as it is inspected. -/
  | inspect (relation : String)
  /-- The rows of a relation with an atom in one slot. -/
  | valuesAt (relation : String) (position : Nat) (value : Atom)
  /-- Whether two names stand for the same relation. -/
  | same (first second : String)
  /-- Whether a binary relation holds no two distinct atoms in both orders. -/
  | isAntisymmetric (relation : String)
  /-- Whether a pair could be added to a binary relation. -/
  | canAdd (relation : String) (first second : Atom)
  /-- The output columns of operands. -/
  | correspondence (operands : List Operand)
  /-- The relations of a registry. -/
  | registry (registry : String)
  /-- The relations of a registry with a given arity. -/
  | ofArity (registry : String) (arity : Nat)
  /-- What the complement of a relation is taken in. -/
  | ambient (registry relation : String)
  /-- The rows of an extension. -/
  | extensionRows (extension : String)
  /-- Whether an extension holds a tuple. -/
  | extensionContains (extension : String) (tuple : Tuple)
  /-- Whether two extensions are equal. -/
  | extensionEqual (first second : String)
  /-- Every occurrence of an atom in an extension. -/
  | extensionAtoms (extension : String)
  /-- The rows of an extension with an atom in one slot. -/
  | extensionValuesAt (extension : String) (position : Nat) (value : Atom)
  /-- Whether an inducer accepts a pair over an extension. -/
  | holds (rule : Inducer) (first second : Atom) (extension : String)
  /-- Whether some declared inducer accepts a pair over an extension. -/
  | induces (properties : PropertySet) (first second : Atom) (extension : String)
  /-- Whether declared guards let a pair in beside an extension. -/
  | checkInsert (properties : PropertySet) (relation : String) (first second : Atom)
    (extension : String)
  /-- Whether properties may be declared together. -/
  | validate (properties : PropertySet) (relation : String)
deriving Repr

/-- What a session answers. -/
inductive Answer where
  /-- Nothing was found. -/
  | nothing
  /-- Nothing speaks against it, or it is done. -/
  | done
  | truth (b : Bool)
  | truths (bs : List Bool)
  | count (n : Nat)
  | text (s : String)
  | relation (r : Relation)
  /-- A relation with the number of its rows. -/
  | summary (r : Relation) (size : Nat)
  | view (v : View)
  | tuple? (t : Option Tuple)
  | tuples (ts : List Tuple)
  | atoms (xs : List Atom)
  | columns (vs : List Var)
  | rows (x : Extension)
  | relations (bs : List Base)
  /-- Stored relations with the numbers of their rows. -/
  | listing (bs : List (Base × Nat))

/-- The listing of stored relations over a store. -/
def Answer.ofBases (s : Store) (bs : List Base) : Answer :=
  .listing (bs.map fun b => (b, (s.extension b).size))

namespace Session

/-- The answer to a question. -/
def ask (s : Session) : Query → Except SessionError Answer
  | .test relation t => return .truth (s.store.accepts (← s.relation relation) t)
  | .testAll relation ts => do
    let reading := s.store.read (← s.relation relation)
    return .truths (ts.map reading.accepts)
  | .filter relation candidates => do
    let reading := s.store.read (← s.relation relation)
    return .tuples (candidates.filter reading.accepts)
  | .summary relation => do
    let r ← s.relation relation
    return .summary r (s.store.rows r).size
  | .rows relation => return .rows (s.store.rows (← s.relation relation))
  | .inspect relation => return .text (← s.relation relation).inspect
  | .valuesAt relation position value => do
    return .tuples ((s.store.rows (← s.relation relation)).valuesAt position value)
  | .same first second => do
    let r ← s.relation first
    return .truth (r.same (← s.relation second))
  | .isAntisymmetric relation =>
    return .truth (s.store.extension (← s.binary relation)).isAntisymmetric
  | .canAdd relation a b => do
    (s.store.canAdd (← s.binary relation) a b).mapError .algebra
    return .done
  | .correspondence operands => return .columns (Bound.correspondence (← s.operands operands))
  | .registry registry => return .ofBases s.store (s.store.registry registry)
  | .ofArity registry arity => return .relations (s.store.ofArity registry arity)
  | .ambient registry relation => do
    let r ← s.relation relation
    return .rows (s.store.ambient registry r.arity r.id)
  | .extensionRows extension => return .rows (← s.extension extension)
  | .extensionContains extension t => return .truth ((← s.extension extension).contains t)
  | .extensionEqual first second => do
    let x ← s.extension first
    return .truth (x.equal (← s.extension second))
  | .extensionAtoms extension => return .atoms (← s.extension extension).atoms
  | .extensionValuesAt extension position value =>
    return .tuples ((← s.extension extension).valuesAt position value)
  | .holds rule a b extension => return .truth (rule.holds (← s.extension extension) a b)
  | .induces properties a b extension =>
    return .truth (properties.induces a b (← s.extension extension))
  | .checkInsert properties relation a b extension => do
    (properties.checkInsert relation a b (← s.extension extension)).mapError .algebra
    return .done
  | .validate properties relation => do
    (properties.validate relation).mapError .algebra
    return .done

end Session

end RelationAlgebra
