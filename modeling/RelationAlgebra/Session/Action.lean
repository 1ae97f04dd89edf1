import RelationAlgebra.Session.Query

/-!
# Actions of a session

Requests that make something or change the store. An action that fails gives an error in place of a
session, so it changes nothing and makes no handle.
-/

namespace RelationAlgebra

/-- A request that makes something or changes the store. -/
inductive Action where
  /-- A new relation without properties, in a registry if one is named. -/
  | declare (name : String) (arity : Nat) (registry : Option String)
  /-- A new binary relation with properties, in a registry if one is named. -/
  | declareBinary (name : String) (properties : PropertySet) (registry : Option String)
  /-- Adds tuples to a relation, all of them or none. -/
  | addAll (relation : String) (tuples : List Tuple)
  /-- Binds the slots of a relation. -/
  | bind (relation : String) (slots : Slots)
  /-- Makes the view that an operand stands for. -/
  | view (operand : Operand)
  /-- Calls a relation. -/
  | call (relation : String) (slots : Slots)
  /-- A new relation, derived from operands. -/
  | derive (combinator : Combinator) (operands : List Operand) (registry : String)
  /-- A new relation, derived from unbound relations. -/
  | deriveUnbound (combinator : Combinator) (relations : List String) (registry : String)
  /-- The first relation of a given name in a registry. -/
  | find (registry name : String)
  /-- Installs a dataset in a registry. -/
  | install (registry : String) (dataset : Dataset)
  /-- An extension of the listed tuples. -/
  | extension (arity : Nat) (tuples : List Tuple)
  /-- The rows of a relation as they are now. -/
  | snapshot (relation : String)
  /-- A scan of the rows of a relation as they are now. -/
  | scan (relation : String) (position : Nat) (value : Atom)
  /-- The next row of a scan. -/
  | next (scan : String)
deriving Repr

namespace Session

/-- The session with a new relation derived from bound relations. -/
def derive (s : Session) (combinator : Combinator) (views : List View) (registry : String)
    (name : Option String) : Except SessionError (Answer × Session) := do
  let (r, store) ← (s.store.derive combinator views registry).mapError .algebra
  return (.relation r, { s with store }.keep name (.relation r))

/-- The answer to an action and the session after it. What the action makes is kept under `name`, if
a name is given. -/
def act (s : Session) (name : Option String) :
    Action → Except SessionError (Answer × Session)
  | .declare relation arity registry => do
    let schema ← (Schema.plain relation arity).mapError .algebra
    let (b, store) := s.store.declare registry schema
    return (.relation (.base b), { s with store }.keep name (.relation (.base b)))
  | .declareBinary relation properties registry => do
    let schema ← (Schema.binary relation properties).mapError .algebra
    let (b, store) := s.store.declare registry schema
    return (.relation (.base b), { s with store }.keep name (.binary b))
  | .addAll relation tuples => do
    let r ← s.relation relation
    let store ← (s.store.addAll r tuples).mapError .algebra
    return (.count (store.rows r).size, { s with store })
  | .bind relation slots => do
    let v ← ((← s.relation relation).bind slots).mapError .algebra
    return (.view v, s.keep name (.view v))
  | .view operand => do
    let v ← s.operand operand
    return (.view v, s.keep name (.view v))
  | .call relation slots => do
    match ← (s.store.call (← s.relation relation) slots).mapError .algebra with
    | .answer accepted => return (.truth accepted, s)
    | .view v => return (.view v, s.keep name (.view v))
  | .derive combinator operands registry => do
    s.derive combinator (← s.operands operands) registry name
  | .deriveUnbound combinator relations registry => do
    let rs ← relations.mapM s.relation
    s.derive combinator (rs.map Relation.identityView) registry name
  | .find registry relation =>
    match s.store.find? registry relation with
    | some b => return (.relation (.base b), s.keep name (.relation (.base b)))
    | none => return (.nothing, s)
  | .install registry dataset => do
    let (bs, store) ← (s.store.install registry dataset).mapError .install
    return (.ofBases store bs, { s with store })
  | .extension arity tuples => do
    let x ← (Extension.ofTuples arity tuples).mapError .algebra
    return (.rows x, s.keep name (.extension x))
  | .snapshot relation => do
    let x := s.store.rows (← s.relation relation)
    return (.rows x, s.keep name (.extension x))
  | .scan relation position value => do
    let c := Scan.start (s.store.rows (← s.relation relation)) position value
    return (.done, s.keep name (.scan c))
  | .next scan => do
    let (t, c) := (← s.scan scan).next
    return (.tuple? t, s.keep (some scan) (.scan c))

end Session

end RelationAlgebra
