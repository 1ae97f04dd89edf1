import RelationAlgebra.Association
import RelationAlgebra.Dataset.File
import RelationAlgebra.Dataset.Install
import RelationAlgebra.Evaluation
import RelationAlgebra.Extension.Scan

/-!
# Sessions

A session is a store together with handles: names for the relations, views, extensions and scans
that were made in it. There is one name space, and giving a name again replaces what it stood for.
-/

namespace RelationAlgebra

/-- What a name of a session stands for. -/
inductive Handle where
  | relation (r : Relation)
  /-- A stored binary relation, known as such. -/
  | binary (b : Base)
  | view (v : View)
  | extension (x : Extension)
  | scan (c : Scan)

/-- A store, and names for what was made in it. -/
structure Session where
  store : Store := {}
  handles : List (String × Handle) := []

/-- Why a request fails. -/
inductive SessionError where
  /-- The name stands for nothing, or for something of another sort than the request needs. -/
  | noHandle (name : String)
  /-- The algebra refuses. -/
  | algebra (cause : RelationError)
  /-- A text is no dataset. -/
  | malformedDataset
  /-- A dataset cannot be installed. -/
  | install (cause : InstallError)
deriving DecidableEq, Repr

/-- The wording of an error. -/
def SessionError.message : SessionError → String
  | noHandle name => name
  | algebra cause => cause.message
  | malformedDataset => Dataset.malformedMessage
  | install cause => cause.fullMessage

/-- An operand of a combinator. -/
inductive Operand where
  /-- A name: of a view, or of a relation, which is used through the identity binding. -/
  | handle (name : String)
  /-- The relation of a name, bound on the spot. -/
  | bound (relation : String) (slots : Slots)
deriving Repr

namespace Session

/-- The session in which nothing was made yet. -/
def empty : Session := {}

/-- The session with a handle under a name, if a name is given. -/
def keep (s : Session) (name : Option String) (h : Handle) : Session :=
  match name with
  | some name => { s with handles := Association.set name h s.handles }
  | none => s

/-- The relation of a name. -/
def relation (s : Session) (name : String) : Except SessionError Relation :=
  match s.handles.lookup name with
  | some (.relation r) => .ok r
  | some (.binary b) => .ok (.base b)
  | _ => .error (.noHandle name)

/-- The binary relation of a name. -/
def binary (s : Session) (name : String) : Except SessionError Base :=
  match s.handles.lookup name with
  | some (.binary b) => .ok b
  | _ => .error (.noHandle name)

/-- The extension of a name. -/
def extension (s : Session) (name : String) : Except SessionError Extension :=
  match s.handles.lookup name with
  | some (.extension x) => .ok x
  | _ => .error (.noHandle name)

/-- The scan of a name. -/
def scan (s : Session) (name : String) : Except SessionError Scan :=
  match s.handles.lookup name with
  | some (.scan c) => .ok c
  | _ => .error (.noHandle name)

/-- The bound relation that an operand stands for. -/
def operand (s : Session) : Operand → Except SessionError View
  | .handle name =>
    match s.handles.lookup name with
    | some (.view v) => .ok v
    | _ => return (← s.relation name).identityView
  | .bound relation slots => do ((← s.relation relation).bind slots).mapError .algebra

/-- The bound relations that operands stand for; the first failure counts. -/
def operands (s : Session) (os : List Operand) : Except SessionError (List View) :=
  os.mapM s.operand

end Session

end RelationAlgebra
