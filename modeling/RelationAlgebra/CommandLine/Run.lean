import RelationAlgebra.CommandLine.Arguments
import RelationAlgebra.Dataset.Family
import RelationAlgebra.Dataset.File
import RelationAlgebra.Dataset.Install
import RelationAlgebra.Evaluation
import RelationAlgebra.Text.Line

/-!
# Commands

What the commands print. A command works on the store into which one dataset was installed. It gives
either a whole report or the reason why there is none, so nothing is printed by a command that
fails.

A relation without rows may have any number of slots, and `eval` and `demo` bind the slots of their
operands by position before anything else looks at these. Where the slots are more than a list can
hold bindings for, the program breaks down.
-/

namespace RelationAlgebra.CommandLine

/-- Why a command fails. -/
inductive Failure where
  | file (cause : FileError)
  | install (cause : InstallError)
  /-- No relation has the name; the names that there are. -/
  | unknownRelation (name : String) (known : List String)
  | algebra (cause : RelationError)
deriving DecidableEq, Repr

/-- The wording of a failure, without what caused it. -/
def Failure.message : Failure → String
  | file cause => cause.message
  | install cause => cause.message
  | unknownRelation name known =>
    let names := ", ".intercalate known
    s!"unknown relation `{name}` (known: {names})"
  | algebra cause => cause.message

/-- What ends a command early. -/
inductive Halt where
  /-- A failure, which is told. -/
  | failure (cause : Failure)
  /-- A relation has more slots than a list can hold bindings for: the program breaks down. -/
  | overflow
  /-- A slot is read that a row does not have: the program breaks down. -/
  | fault
deriving DecidableEq, Repr

/-- The code that a halt leaves behind. -/
def Halt.code : Halt → Nat
  | failure _ => 1
  | overflow | fault => 101

/-- What a halt leaves on the standard error. A breakdown comes after a blank line. -/
def Halt.lines : Halt → List String
  | failure cause => [s!"Error: {cause.message}"]
  | overflow => ["", "capacity overflow"]
  | fault => ["", "index out of bounds"]

/-- What a command prints. -/
structure Report where
  /-- The lines of the answer. -/
  lines : List String
  /-- A remark beside the answer. -/
  note : Option String := none
deriving DecidableEq, Repr

/-- The registry into which the dataset is installed. -/
def registry : String := "main"

/-- The relation of a name. -/
def lookup (s : Store) (name : String) : Except Halt Base :=
  match s.find? registry name with
  | some b => .ok b
  | none => .error (.failure (.unknownRelation name ((s.registry registry).map (·.name))))

/-- A relation as an operand, its slots bound by position. -/
def unbound (r : Relation) : Except Halt View :=
  match r.identityView? with
  | some v => .ok v
  | none => .error .overflow

/-- The relation of a name, as an operand. -/
def operand (s : Store) (name : String) : Except Halt View := do
  unbound (.base (← lookup s name))

/-- A step of the algebra, which may fail. -/
def algebra {α : Type} (x : Except RelationError α) : Except Halt α :=
  x.mapError fun cause => .failure (.algebra cause)

/-- A new relation, derived from bound relations. -/
def derive (s : Store) (combinator : Combinator) (operands : List View) :
    Except Halt (Relation × Store) :=
  algebra (s.derive combinator operands registry)

/-! ## Lines -/

/-- A text with blanks behind it, up to the given number of characters. -/
def padded (width : Nat) (s : String) : String :=
  s ++ String.ofList (.replicate (width - s.length) ' ')

/-- The answer to a question. -/
def verdict (b : Bool) : String := if b then "yes" else "no"

/-- The tuple that words give, one atom a word. -/
def tupleOfWords (words : List String) : Tuple := words.map Atom.ofWord

/-- The tuple that a candidate gives, its atoms separated by colons. -/
def tupleOfCandidate (candidate : String) : Tuple := tupleOfWords (Text.splitAt ':' candidate)

/-- A relation and its rows. -/
def rowLines (s : Store) (r : Relation) : List String :=
  let x := s.rows r
  s!"{r.display} ({x.size} tuple(s))" :: x.rows.map fun t => s!"  {t.display}"

/-- A relation in the list of all. -/
def listLine (s : Store) (b : Base) : String :=
  let name := padded 24 b.name
  let size := padded 4 (toString (s.extension b).size)
  s!"{name} arity {b.arity}  size {size} {b.properties.display}"

/-- Which people a relation accepts. -/
def membersLine (s : Store) (people : List Atom) (r : Relation) : String :=
  let reading := s.read r
  let names := ", ".intercalate ((people.filter fun a => reading.accepts [a]).map Atom.display)
  s!"{r.name} {names}"

/-- Whether a relation accepts a pair. -/
def askLine (s : Store) (r : Relation) (a b : String) : String :=
  s!"{a} {r.name} {b}: {verdict (s.accepts r [.text a, .text b])}"

/-! ## Commands -/

/-- All relations. -/
def list (s : Store) : Report := { lines := (s.registry registry).map (listLine s) }

/-- The rows of a relation. -/
def showRows (s : Store) (relation : String) : Except Halt Report :=
  return { lines := rowLines s (.base (← lookup s relation)) }

/-- Whether a relation accepts a tuple, with a remark if the tuple has another length. -/
def test (s : Store) (relation : String) (words : List String) : Except Halt Report := do
  let b ← lookup s relation
  let t := tupleOfWords words
  let answer := verdict (s.accepts (.base b) t)
  let note :=
    if t.length = b.arity then none
    else some s!"note: `{b.name}` has arity {b.arity}, got {t.length} atom(s)"
  return { lines := [s!"{b.name}{t.display}: {answer}"], note }

/-- The rows of a derived relation or, if there are candidates, which of them it accepts. -/
def eval (s : Store) (combinator : Combinator) (relations candidates : List String) :
    Except Halt Report := do
  let operands ← relations.mapM (operand s)
  let (r, s) ← derive s combinator operands
  if candidates.isEmpty then
    return { lines := rowLines s r }
  else
    let reading := s.read r
    return { lines := r.display :: candidates.map fun candidate =>
      let t := tupleOfCandidate candidate
      s!"  {t.display}: {verdict (reading.accepts t)}" }

/-- The family example: who is female and who is not, and some questions about parents, children,
fathers and grandparents. -/
def demo (s : Store) : Except Halt Report := do
  let human ← lookup s "is_human"
  let parent := Relation.base (← lookup s "is_parent")
  let female := Relation.base (← lookup s "is_female")
  let (male, s) ← derive s .complement [← unbound female]
  let (child, s) ← derive s .converse [← unbound parent]
  let (grandparent, s) ← derive s .composition [← unbound parent, ← unbound parent]
  let parentAB ← algebra (parent.bind [.var (.named "A"), .var (.named "B")])
  let maleA ← algebra (male.bind [.var (.named "A")])
  let (father, s) ← derive s .intersection [parentAB, maleA]
  let people := (s.extension human).rows.filterMap List.head?
  return { lines :=
    [membersLine s people female, membersLine s people male, "",
      askLine s parent "teresa" "piotr", askLine s parent "piotr" "teresa",
      askLine s father "teresa" "ania", askLine s father "robert" "ania", "",
      askLine s child "piotr" "teresa", askLine s grandparent "janina" "karol",
      askLine s grandparent "teresa" "karol", ""] ++ rowLines s grandparent }

/-- What a command prints. -/
def Command.report (s : Store) : Command → Except Halt Report
  | list => return CommandLine.list s
  | .show relation => showRows s relation
  | test relation words => CommandLine.test s relation words
  | eval combinator relations candidates => CommandLine.eval s combinator relations candidates
  | demo => CommandLine.demo s

/-! ## Invocations -/

/-- The dataset that an invocation works on: the family dataset if no other is named, or else that
of the file with the given content. -/
def Invocation.load (i : Invocation) (content : Option String) : Except Halt Dataset :=
  match i.dataset with
  | none => .ok .family
  | some path => (Dataset.ofFile path content).mapError fun cause => .failure (.file cause)

/-- The store into which a dataset is installed. -/
def install (d : Dataset) : Except Halt (List Base × Store) :=
  (Store.empty.install registry d).mapError fun cause => .failure (.install cause)

/-- What an invocation prints. -/
def Invocation.report (i : Invocation) (content : Option String) : Except Halt Report := do
  let dataset ← i.load content
  let (_, s) ← install dataset
  i.command.report s

/-- What a run of the program leaves behind. -/
structure Outcome where
  /-- Zero after a success, one after a failure, two if the arguments ask for nothing; another one
  after a breakdown. -/
  code : Nat
  stdout : String
  stderr : String
deriving DecidableEq, Repr

/-- The first line that a run leaves on its standard error. -/
def Outcome.headline (o : Outcome) : String := Text.firstLine o.stderr

/-- Lines, each with its end. -/
def unlines (lines : List String) : String := String.join (lines.map (· ++ "\n"))

/-- What a run leaves behind that gives a report or halts. -/
def Outcome.ofReport : Except Halt Report → Outcome
  | .ok report =>
    { code := 0, stdout := unlines report.lines, stderr := unlines report.note.toList }
  | .error halt => { code := halt.code, stdout := "", stderr := unlines halt.lines }

/-- What the program leaves behind if its arguments ask for nothing. -/
def Outcome.usage : Outcome where
  code := 2
  stdout := ""
  stderr := unlines ["usage: [--dataset PATH] list | show RELATION | test RELATION ATOM... | " ++
    "eval COMBINATOR RELATION... [--candidates TUPLE,...] | demo"]

/-- A run of the program with the given arguments, where `read` gives the content of a file. -/
def run (read : String → Option String) (args : List String) : Outcome :=
  match parse? args with
  | none => .usage
  | some i => .ofReport (i.report (i.dataset.bind read))

end RelationAlgebra.CommandLine
