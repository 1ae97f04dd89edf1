import RelationAlgebra.CommandLine.Run
import RelationAlgebra.Proofs.Declared

/-!
# Printing as it goes

A command of the command line gives a whole report or none. Here the commands print one line after
another, and what they printed stays when they halt later; besides, the walk through the family
example reads the first slot of every row, and a row without slots is a fault that ends the program.

The lines that are printed are those of the report (`CommandLine.execute_eq_run`): whatever may halt
comes before the first line, and there is never a fault, since no relation without slots is ever
declared (`CommandLine.ne_nil_of_install`).
-/

namespace RelationAlgebra

namespace CommandLine

/-! ## Computations -/

/-- The lines that were printed so far, on either output. -/
structure Printed where
  stdout : List String := []
  stderr : List String := []

/-- A computation that prints as it goes. What it printed before it halts stays. -/
abbrev Console : Type → Type := ExceptT Halt (StateM Printed)

namespace Console

variable {α β : Type}

/-- What comes of a computation, and what is printed after it. -/
def perform (x : Console α) (o : Printed) : Except Halt α × Printed := StateT.run (ExceptT.run x) o

/-- Prints a line of the answer. -/
def println (line : String) : Console Unit :=
  modify fun o => { o with stdout := o.stdout ++ [line] }

/-- Prints a remark. -/
def eprintln (line : String) : Console Unit :=
  modify fun o => { o with stderr := o.stderr ++ [line] }

/-- A step that may halt and prints nothing. -/
def attempt (x : Except Halt α) : Console α := liftM x

/-- The atom in a slot of a row. -/
def slot (t : Tuple) (i : Nat) : Console Atom :=
  match t[i]? with
  | some a => pure a
  | none => throw .fault

/-! ## Commands -/

/-- Prints a relation and its rows. -/
def rows (s : Store) (r : Relation) : Console Unit := do
  let x := s.rows r
  println s!"{r.display} ({x.size} tuple(s))"
  x.rows.forM fun t => println s!"  {t.display}"

/-- Prints all relations. -/
def list (s : Store) : Console Unit := (s.registry registry).forM fun b => println (listLine s b)

/-- Prints the rows of a relation. -/
def showRows (s : Store) (relation : String) : Console Unit := do
  rows s (.base (← attempt (lookup s relation)))

/-- Prints whether a relation accepts a tuple, after a remark if the tuple has another length. -/
def test (s : Store) (relation : String) (words : List String) : Console Unit := do
  let b ← attempt (lookup s relation)
  let t := tupleOfWords words
  if t.length ≠ b.arity then
    eprintln s!"note: `{b.name}` has arity {b.arity}, got {t.length} atom(s)"
  println s!"{b.name}{t.display}: {verdict (s.accepts (.base b) t)}"

/-- Prints the rows of a derived relation or, if there are candidates, which of them it accepts. -/
def eval (s : Store) (combinator : Combinator) (relations candidates : List String) :
    Console Unit := do
  let operands ← relations.mapM fun name => attempt (operand s name)
  let (r, s) ← attempt (derive s combinator operands)
  if candidates.isEmpty then
    rows s r
  else
    println r.display
    candidates.forM fun candidate =>
      let t := tupleOfCandidate candidate
      println s!"  {t.display}: {verdict (s.accepts r t)}"

/-- Prints which people a relation accepts. -/
def members (s : Store) (people : List Atom) (r : Relation) : Console Unit :=
  let names := ", ".intercalate ((people.filter fun a => s.accepts r [a]).map Atom.display)
  println s!"{r.name} {names}"

/-- Prints whether a relation accepts a pair. -/
def ask (s : Store) (r : Relation) (a b : String) : Console Unit :=
  println s!"{a} {r.name} {b}: {verdict (s.accepts r [.text a, .text b])}"

/-- Walks through the family example. -/
def demo (s : Store) : Console Unit := do
  let human ← attempt (lookup s "is_human")
  let parent := Relation.base (← attempt (lookup s "is_parent"))
  let female := Relation.base (← attempt (lookup s "is_female"))
  let (male, s) ← attempt (derive s .complement [← attempt (unbound female)])
  let (child, s) ← attempt (derive s .converse [← attempt (unbound parent)])
  let (grandparent, s) ←
    attempt (derive s .composition [← attempt (unbound parent), ← attempt (unbound parent)])
  let parentAB ← attempt (algebra (parent.bind [.var (.named "A"), .var (.named "B")]))
  let maleA ← attempt (algebra (male.bind [.var (.named "A")]))
  let (father, s) ← attempt (derive s .intersection [parentAB, maleA])
  let people ← (s.extension human).rows.mapM fun t => slot t 0
  members s people female
  members s people male
  println ""
  ask s parent "teresa" "piotr"
  ask s parent "piotr" "teresa"
  ask s father "teresa" "ania"
  ask s father "robert" "ania"
  println ""
  ask s child "piotr" "teresa"
  ask s grandparent "janina" "karol"
  ask s grandparent "teresa" "karol"
  println ""
  rows s grandparent

/-- Prints what a command asks for. -/
def command (s : Store) : Command → Console Unit
  | .list => list s
  | .show relation => showRows s relation
  | .test relation words => test s relation words
  | .eval combinator relations candidates => eval s combinator relations candidates
  | .demo => demo s

/-- Prints what an invocation asks for. -/
def invocation (i : Invocation) (content : Option String) : Console Unit := do
  let dataset ← attempt (i.load content)
  let (_, s) ← attempt (install dataset)
  command s i.command

end Console

/-- What a run leaves behind that printed as it went. -/
def Outcome.ofConsole : Except Halt Unit × Printed → Outcome
  | (.ok (), o) => { code := 0, stdout := unlines o.stdout, stderr := unlines o.stderr }
  | (.error halt, o) =>
    { code := halt.code
      stdout := unlines o.stdout
      stderr := unlines (o.stderr ++ halt.lines) }

/-- A run of the program with the given arguments that prints as it goes. -/
def execute (read : String → Option String) (args : List String) : Outcome :=
  match parse? args with
  | none => .usage
  | some i => .ofConsole ((Console.invocation i (i.dataset.bind read)).perform {})

theorem lookup_eq_ok_iff {s : Store} {name : String} {b : Base} :
    lookup s name = .ok b ↔ s.find? registry name = some b := by
  unfold lookup
  cases s.find? registry name <;> simp

theorem derive_eq_ok_iff {s s' : Store} {r : Relation} {combinator : Combinator}
    {views : List View} :
    derive s combinator views = .ok (r, s') ↔
      s.derive combinator views registry = .ok (r, s') := mapError_eq_ok_iff

theorem install_eq_ok_iff {d : Dataset} {bs : List Base} {s : Store} :
    install d = .ok (bs, s) ↔ Store.empty.install registry d = .ok (bs, s) := mapError_eq_ok_iff

namespace Console

variable {α β : Type}

/-- A step that halts is the last one, and what was printed before it stands. -/
theorem perform_bind (x : Console α) (f : α → Console β) (o : Printed) :
    (x >>= f).perform o = match x.perform o with
      | (.ok a, o') => (f a).perform o'
      | (.error e, o') => (.error e, o') := by
  unfold perform ExceptT.run StateT.run
  simp only [bind, ExceptT.bind, ExceptT.mk, StateT.bind, ExceptT.bindCont]
  rcases x o with ⟨a | e, o'⟩ <;> rfl

theorem perform_pure (a : α) (o : Printed) : perform (pure a : Console α) o = (.ok a, o) := rfl

theorem perform_attempt (x : Except Halt α) (o : Printed) :
    perform (attempt x) o = (x, o) := rfl

/-! ## Lines -/

/-- Whether a computation does nothing but print lines of the answer. -/
def Prints (x : Console Unit) (lines : List String) : Prop :=
  ∀ o, x.perform o = (.ok (), { o with stdout := o.stdout ++ lines })

theorem prints_println (line : String) : Prints (println line) [line] := fun _ => rfl

/-- Two parts in sequence print the lines of the first, then those of the second. -/
theorem Prints.bind {x y : Console Unit} {lines lines' : List String} (hx : x.Prints lines)
    (hy : y.Prints lines') : Prints (x >>= fun _ => y) (lines ++ lines') := by
  intro o
  rw [perform_bind, hx]
  exact (hy _).trans (by rw [List.append_assoc])

/-- A loop that prints one line at each turn prints the lines in the order of its list. -/
theorem Prints.forM {f : α → Console Unit} {g : α → String} (h : ∀ a, Prints (f a) [g a])
    (as : List α) : Prints (as.forM f) (as.map g) := by
  induction as with
  | nil => exact fun o => by simp [List.forM, perform_pure]
  | cons a as ih => exact (h a).bind ih

theorem prints_rows (s : Store) (r : Relation) : Prints (rows s r) (rowLines s r) :=
  (prints_println _).bind (.forM (fun _ => prints_println _) _)

/-! ## Reports -/

/-- What is printed after a report. -/
def Printed.after (o : Printed) (report : Report) : Printed where
  stdout := o.stdout ++ report.lines
  stderr := o.stderr ++ report.note.toList

/-- Whether a computation prints the whole report that there is, or halts as there is none without
printing a line. -/
def Gives (x : Console Unit) (report : Except Halt Report) : Prop :=
  ∀ o, x.perform o = match report with
    | .ok report => (.ok (), Printed.after o report)
    | .error halt => (.error halt, o)

theorem Prints.gives {x : Console Unit} {lines : List String} (h : x.Prints lines) :
    x.Gives (.ok { lines }) := by
  intro o
  rw [h o]
  simp [Printed.after]

/-- A step that may halt comes before what depends on it. -/
theorem gives_bind {x : Except Halt α} {f : α → Console Unit} {g : α → Except Halt Report}
    (h : ∀ a, x = .ok a → (f a).Gives (g a)) : Gives (attempt x >>= f) (x >>= g) := by
  intro o
  rw [perform_bind, perform_attempt]
  cases x with
  | error e => rfl
  | ok a => exact h a rfl o

/-- Steps that neither fail nor print. -/
theorem gives_bind_of_perform {x : Console α} {a : α} (hx : ∀ o, x.perform o = (.ok a, o))
    {f : α → Console Unit} {report : Except Halt Report} (h : (f a).Gives report) :
    Gives (x >>= f) report := by
  intro o
  rw [perform_bind, hx]
  exact h o

/-- Computations that may halt can be lifted into the console step by step. -/
theorem attempt_bind {x : Except Halt α} {f : α → Except Halt β} :
    attempt (x >>= f) = attempt x >>= fun a => attempt (f a) := by
  cases x <;> rfl

theorem mapM_attempt (f : α → Except Halt β) (as : List α) :
    (as.mapM fun a => attempt (f a)) = attempt (as.mapM f) := by
  induction as with
  | nil => rfl
  | cons a as ih =>
    rw [List.mapM_cons, List.mapM_cons, attempt_bind, ih]
    simp only [attempt_bind]
    rfl

/-- Reading the first slots of rows that have one. -/
theorem perform_mapM_slot {rows : List Tuple} (h : ∀ t ∈ rows, t ≠ []) (o : Printed) :
    (rows.mapM fun t => slot t 0).perform o = (.ok (rows.filterMap List.head?), o) := by
  induction rows with
  | nil => rfl
  | cons t rows ih =>
    rw [List.forall_mem_cons] at h
    obtain ⟨a, t, rfl⟩ := List.exists_cons_of_ne_nil h.1
    have hslot : slot (a :: t) 0 = pure a := rfl
    rw [List.mapM_cons, hslot, pure_bind, perform_bind, ih h.2]
    rfl

theorem gives_list (s : Store) : (list s).Gives (.ok (CommandLine.list s)) :=
  (Prints.forM (fun _ => prints_println _) _).gives

theorem gives_showRows (s : Store) (relation : String) :
    (showRows s relation).Gives (CommandLine.showRows s relation) :=
  gives_bind fun b _ => (prints_rows s (.base b)).gives

theorem gives_test (s : Store) (relation : String) (words : List String) :
    (test s relation words).Gives (CommandLine.test s relation words) := by
  refine gives_bind fun b _ => ?_
  by_cases hlen : (tupleOfWords words).length = b.arity
  · simp only [hlen, ne_eq, not_true_eq_false, if_true, if_false]
    exact (prints_println _).gives
  · simp only [hlen, ne_eq, not_false_eq_true, if_true, if_false]
    exact fun o => rfl

/-- An evaluation prints the lines of its report, the answers about the candidates after the rows.
-/
theorem gives_eval (s : Store) (combinator : Combinator) (relations candidates : List String) :
    (eval s combinator relations candidates).Gives
      (CommandLine.eval s combinator relations candidates) := by
  rw [eval, mapM_attempt]
  refine gives_bind fun operands _ => gives_bind fun (r, s) _ => ?_
  dsimp only
  split
  · exact (prints_rows s r).gives
  · exact ((prints_println _).bind (.forM (fun _ => prints_println _) _)).gives

/-- To derive a relation leaves every stored extension as it was. -/
theorem extension_of_derive {s s' : Store} {combinator : Combinator} {views : List View}
    {r : Relation} (h : CommandLine.derive s combinator views = .ok (r, s')) :
    s'.extension = s.extension := by
  obtain ⟨-, rfl⟩ := Store.derive_eq_ok_iff.mp (derive_eq_ok_iff.mp h)
  rfl

/-- The walk through the combinators prints its report if no row is the empty tuple, which the walk
would read a first component of. -/
theorem gives_demo {s : Store}
    (h : ∀ name b, s.find? registry name = some b → ∀ t ∈ (s.extension b).rows, t ≠ []) :
    (demo s).Gives (CommandLine.demo s) := by
  refine gives_bind fun human hhuman => gives_bind fun parent _ => gives_bind fun female _ => ?_
  refine gives_bind fun notFemale _ => gives_bind fun (male, s₁) h₁ => ?_
  refine gives_bind fun parentView _ => gives_bind fun (child, s₂) h₂ => ?_
  refine gives_bind fun first _ => gives_bind fun second _ => ?_
  refine gives_bind fun (grandparent, s₃) h₃ => ?_
  refine gives_bind fun parentAB _ => gives_bind fun maleA _ => ?_
  refine gives_bind fun (father, s₄) h₄ => ?_
  -- deriving relations left the rows of the people as they were
  have hrows : ∀ t ∈ (s₄.extension human).rows, t ≠ [] := by
    rw [extension_of_derive h₄, extension_of_derive h₃, extension_of_derive h₂,
      extension_of_derive h₁]
    exact h _ human (lookup_eq_ok_iff.mp hhuman)
  refine gives_bind_of_perform (perform_mapM_slot hrows) (Prints.gives ?_)
  refine (prints_println _).bind <| (prints_println _).bind <| (prints_println _).bind ?_
  refine (prints_println _).bind <| (prints_println _).bind <| (prints_println _).bind ?_
  refine (prints_println _).bind <| (prints_println _).bind <| (prints_println _).bind ?_
  refine (prints_println _).bind <| (prints_println _).bind <| (prints_println _).bind ?_
  exact prints_rows s₄ grandparent

/-- Every command prints the report it stands for, line by line. -/
theorem gives_command {s : Store}
    (h : ∀ name b, s.find? registry name = some b → ∀ t ∈ (s.extension b).rows, t ≠ [])
    (c : Command) : (command s c).Gives (c.report s) :=
  match c with
  | .list => gives_list s
  | .show relation => gives_showRows s relation
  | .test relation words => gives_test s relation words
  | .eval combinator relations candidates => gives_eval s combinator relations candidates
  | .demo => gives_demo h

end Console

/-! ## Runs -/

/-- A dataset that is installed makes a session. -/
theorem reached_of_install {d : Dataset} {bs : List Base} {s : Store}
    (h : Store.empty.install registry d = .ok (bs, s)) : Session.Reached { store := s } := by
  have hinstall : (Session.empty.store.install registry d).mapError SessionError.install =
      .ok (bs, s) := mapError_eq_ok_iff.mpr h
  have hact : Session.empty.act none (.install registry d) =
      .ok (.ofBases s bs, { store := s }) := by
    rw [Session.act, hinstall]
    rfl
  have hstep : (Session.empty.step (.act (.install registry d) none)).2 = { store := s } := by
    rw [Session.step, Session.attempt, hact]
  exact hstep ▸ Session.Reached.empty.step _

/-- Every row of an installed relation has a first slot. -/
theorem ne_nil_of_install {d : Dataset} {bs : List Base} {s : Store}
    (h : Store.empty.install registry d = .ok (bs, s)) {name : String} {b : Base}
    (hb : s.find? registry name = some b) {t : Tuple} (ht : t ∈ (s.extension b).rows) : t ≠ [] := by
  have hs := reached_of_install h
  have hmem : b ∈ s.registry registry := List.mem_of_find?_eq_some hb
  have hpos := (hs.lawful.declarable (.registered hmem)).arity_pos
  have hlen := hs.valid.store.length_of_mem_extension (hs.valid.store.registered hmem) ht
  exact List.ne_nil_of_length_pos (hlen ▸ hpos)

/-- An invocation loads its dataset and then gives what its command gives. -/
theorem gives_invocation (i : Invocation) (content : Option String) :
    (Console.invocation i content).Gives (i.report content) :=
  Console.gives_bind fun _ _ => Console.gives_bind fun (_, _) h =>
    Console.gives_command (fun _ _ hb _ ht => ne_nil_of_install (install_eq_ok_iff.mp h) hb ht) _

/-- Printing as it goes, the program leaves behind what it leaves behind if it does not print a line
before it has them all. -/
theorem execute_eq_run (read : String → Option String) (args : List String) :
    execute read args = run read args := by
  unfold execute run
  cases parse? args with
  | none => rfl
  | some i =>
    dsimp only
    rw [gives_invocation i _ {}]
    cases i.report (i.dataset.bind read) with
    | ok report => rfl
    | error cause => rfl

end CommandLine

end RelationAlgebra
