import RelationAlgebra.Session.Action

/-!
# Running a session

A session takes requests one after another and answers each. A request that fails leaves the session
as it was, and the requests after it are taken all the same.
-/

namespace RelationAlgebra

/-- What a session can be asked for. -/
inductive Request where
  | ask (query : Query)
  /-- An action, with the name under which to keep what it makes. -/
  | act (action : Action) (name : Option String)
  /-- Installs the dataset that a text writes. -/
  | load (registry text : String)
deriving Repr

namespace Session

/-- The answer to an action, and the session after it: the old one if the action fails. -/
def attempt (s : Session) (name : Option String) (action : Action) :
    Except SessionError Answer × Session :=
  match s.act name action with
  | .ok (answer, s) => (.ok answer, s)
  | .error e => (.error e, s)

/-- The answer to a request, and the session after it. -/
def step (s : Session) : Request → Except SessionError Answer × Session
  | .ask query => (s.ask query, s)
  | .act action name => s.attempt name action
  | .load registry text =>
    match Dataset.parse? text with
    | some dataset => s.attempt none (.install registry dataset)
    | none => (.error .malformedDataset, s)

/-- The answers to requests taken in turn, and the session after them. -/
def run (s : Session) : List Request → List (Except SessionError Answer) × Session
  | [] => ([], s)
  | request :: requests =>
    let (answer, s) := s.step request
    let (answers, s) := s.run requests
    (answer :: answers, s)

end Session

end RelationAlgebra
