import RelationAlgebra.Proofs.Composition
import RelationAlgebra.Proofs.Console
import RelationAlgebra.Proofs.Derivation
import RelationAlgebra.Proofs.DoubleComplement
import RelationAlgebra.Proofs.Frame

/-!
# What a report says

The lines of a report, said by what the registry lists, by the rows of the relations and by what
these accept (`CommandLine.Command.AnsweredBy`). The list has a line for each registered relation, a
relation is shown with its rows in their order, and a question is answered by yes just if the tuple
is accepted. Whenever a command gives a report, this is the whole answer
(`CommandLine.answeredBy_of_report`).
-/

namespace RelationAlgebra

namespace CommandLine

variable {s : Store}

/-! ## Operands -/

/-- A relation is an operand if a list can hold a binding for each of its slots. -/
theorem unbound_eq_ok_iff {r : Relation} {v : View} :
    unbound r = .ok v ↔ r.arity ≤ Slots.capacity ∧ v = r.identityView := by
  unfold unbound Relation.identityView? Slots.identity?
  by_cases hfits : r.arity ≤ Slots.capacity
  · simp [hfits, Relation.identityView, eq_comm]
  · simp [hfits]

/-- A relation of a name is an operand if it is registered and not too long. -/
theorem operand_eq_ok_iff {name : String} {v : View} :
    operand s name = .ok v ↔
      ∃ b, s.find? registry name = some b ∧ b.arity ≤ Slots.capacity ∧
        v = (Relation.base b).identityView := by
  simp only [operand, bind_eq_ok_iff, lookup_eq_ok_iff, unbound_eq_ok_iff]
  rfl

/-- The operands of several names, in order. -/
theorem mapM_operand_eq_ok_iff {names : List String} {views : List View} :
    names.mapM (operand s) = .ok views ↔
      ∃ bases, names.mapM (s.find? registry) = some bases ∧
        (∀ b ∈ bases, b.arity ≤ Slots.capacity) ∧
        views = bases.map fun b => (Relation.base b).identityView := by
  induction names generalizing views with
  | nil => simp [pure, Except.pure, eq_comm]
  | cons name names ih =>
    simp only [List.mapM_cons, bind_eq_ok_iff, operand_eq_ok_iff, ih, Option.bind_eq_bind,
      Option.bind_eq_some_iff]
    constructor
    · rintro ⟨_, ⟨b, hb, hfits, rfl⟩, _, ⟨bases, hbases, hall, rfl⟩, hviews⟩
      refine ⟨b :: bases, ⟨b, hb, bases, hbases, rfl⟩, ?_, (Except.ok.inj hviews).symm⟩
      exact List.forall_mem_cons.mpr ⟨hfits, hall⟩
    · rintro ⟨_, ⟨b, hb, bases, hbases, hcons⟩, hall, rfl⟩
      obtain rfl := Option.some.inj hcons
      rw [List.forall_mem_cons] at hall
      exact ⟨_, ⟨b, hb, hall.1, rfl⟩, _, ⟨bases, hbases, hall.2, rfl⟩, rfl⟩

/-! ## Whole answers -/

/-- A question and its answer. -/
def answerLine (question : String) (b : Bool) : String :=
  if b then question ++ ": yes" else question ++ ": no"

/-- A candidate, and whether a relation accepts it. -/
def candidateLine (s : Store) (r : Relation) (candidate : String) : String :=
  answerLine ("  " ++ (tupleOfCandidate candidate).display)
    (s.accepts r (tupleOfCandidate candidate))

/-- So many blanks. -/
def blanks (n : Nat) : String := String.ofList (List.replicate n ' ')

/-- The line of a relation in the list of all: its name, its arity, the number of its rows and its
declared properties, with blanks behind a short name and a short number. -/
def entry (b : Base) (size : Nat) : String :=
  b.name ++ blanks (24 - b.name.length) ++ " arity " ++ toString b.arity ++ "  size " ++
    toString size ++ blanks (4 - (toString size).length) ++ " " ++ b.properties.display

/-- A relation by its name and its arity, with the number of its rows, and below it the rows. -/
def table (name : String) (arity : Nat) (rows : List Tuple) : List String :=
  (name ++ "/" ++ toString arity ++ " (" ++ toString rows.length ++ " tuple(s))") ::
    rows.map fun t => "  " ++ t.display

/-- Which of several atoms a relation accepts. -/
def roll (s : Store) (name : String) (r : Relation) (people : List Atom) : String :=
  name ++ " " ++ ", ".intercalate ((people.filter fun a => s.accepts r [a]).map Atom.display)

namespace Walk

/-- Those in another unary relation who are not female. -/
def male (s : Store) (female : Base) : Relation :=
  .complement s.next (Relation.base female).identityView registry

/-- Who is a child of whom. -/
def child (s : Store) (parent : Base) : Relation := .converse (s.next + 1) (.base parent)

/-- Who is a parent of a parent of whom. -/
def grandparent (s : Store) (parent : Base) : Relation :=
  .composition (s.next + 2) (.base parent) (.base parent)

/-- Who is a parent of whom and male. -/
def father (s : Store) (parent female : Base) : Relation :=
  .intersection (s.next + 3)
    [⟨.base parent, [.var (.named "A"), .var (.named "B")]⟩,
      ⟨male s female, [.var (.named "A")]⟩]

/-- The lines of the walk through the family example. People are listed in the order of their
rows. -/
def lines (s : Store) (human parent female : Base) : List String :=
  let people := (s.extension human).rows.filterMap List.head?
  let holds (r : Relation) (a b : String) : Bool := s.accepts r [.text a, .text b]
  [roll s "is_female" (.base female) people,
    roll s "not_is_female" (male s female) people,
    "",
    answerLine "teresa is_parent piotr" (holds (.base parent) "teresa" "piotr"),
    answerLine "piotr is_parent teresa" (holds (.base parent) "piotr" "teresa"),
    answerLine "teresa is_parent_and_not_is_female ania"
      (holds (father s parent female) "teresa" "ania"),
    answerLine "robert is_parent_and_not_is_female ania"
      (holds (father s parent female) "robert" "ania"),
    "",
    answerLine "piotr converse_of_is_parent teresa" (holds (child s parent) "piotr" "teresa"),
    answerLine "janina is_parent_then_is_parent karol"
      (holds (grandparent s parent) "janina" "karol"),
    answerLine "teresa is_parent_then_is_parent karol"
      (holds (grandparent s parent) "teresa" "karol"),
    ""] ++ table "is_parent_then_is_parent" 2 (s.rows (grandparent s parent)).rows

end Walk

/-- Whether a report is the whole answer to a command over a store. -/
inductive Command.AnsweredBy (s : Store) : Command → Report → Prop where
  /-- One line for each registered relation, in the order of registration. -/
  | list : AnsweredBy s .list
      { lines := (s.registry registry).map fun b => entry b (s.extension b).rows.length }
  /-- The rows of a relation in the order of their insertion. -/
  | rows {relation : String} {b : Base} (hb : s.find? registry relation = some b) :
      AnsweredBy s (.show relation) { lines := table relation b.arity (s.extension b).rows }
  /-- Whether a relation accepts a tuple, with a remark if the tuple has another length. -/
  | test {relation : String} {words : List String} {b : Base}
      (hb : s.find? registry relation = some b) :
      AnsweredBy s (.test relation words)
        { lines := [answerLine (relation ++ (tupleOfWords words).display)
            (s.accepts (.base b) (tupleOfWords words))]
          note := if words.length = b.arity then none else
            some ("note: `" ++ relation ++ "` has arity " ++ toString b.arity ++ ", got " ++
              toString words.length ++ " atom(s)") }
  /-- The rows of a derived relation in the order of their enumeration. -/
  | derived {combinator : Combinator} {relations : List String} {bases : List Base}
      {r : Relation} (hbases : relations.mapM (s.find? registry) = some bases)
      (hr : Relation.derive s.next combinator
        (bases.map fun b => (Relation.base b).identityView) registry = .ok r) :
      AnsweredBy s (.eval combinator relations [])
        { lines := table r.name r.arity (s.rows r).rows }
  /-- One line for each candidate, in their order. -/
  | candidates {combinator : Combinator} {relations candidates : List String}
      {bases : List Base} {r : Relation} (hbases : relations.mapM (s.find? registry) = some bases)
      (hr : Relation.derive s.next combinator
        (bases.map fun b => (Relation.base b).identityView) registry = .ok r)
      (h : candidates ≠ []) :
      AnsweredBy s (.eval combinator relations candidates)
        { lines := (r.name ++ "/" ++ toString r.arity) :: candidates.map (candidateLine s r) }
  /-- The walk through the family example. -/
  | demo {human parent female : Base} (hhuman : s.find? registry "is_human" = some human)
      (hparent : s.find? registry "is_parent" = some parent)
      (hfemale : s.find? registry "is_female" = some female) :
      AnsweredBy s .demo { lines := Walk.lines s human parent female }

/-! ## Reports -/

theorem append_verdict (question : String) (b : Bool) :
    question ++ ": " ++ verdict b = answerLine question b := by
  rw [String.append_assoc]
  cases b <;> rfl

/-- The line of a listing is the name of the relation, its arity and the number of its rows. -/
theorem listLine_eq (s : Store) (b : Base) :
    listLine s b = entry b (s.extension b).rows.length := by
  have h : listLine s b = b.name ++ blanks (24 - b.name.length) ++ " arity " ++ toString b.arity ++
      "  size " ++ (toString (s.extension b).rows.length ++
        blanks (4 - (toString (s.extension b).rows.length).length)) ++ " " ++
      b.properties.display := rfl
  rw [h, entry]
  simp only [String.append_assoc]

theorem rowLines_eq (s : Store) (r : Relation) :
    rowLines s r = table r.name r.arity (s.rows r).rows := rfl

theorem membersLine_eq (s : Store) (people : List Atom) (r : Relation) :
    membersLine s people r = roll s r.name r people := rfl

theorem askLine_eq (s : Store) (r : Relation) (a b : String) :
    askLine s r a b =
      answerLine (a ++ " " ++ r.name ++ " " ++ b) (s.accepts r [.text a, .text b]) :=
  append_verdict _ _

theorem name_of_find {name : String} {b : Base} (h : s.find? registry name = some b) :
    b.name = name := by
  simpa using List.find?_some h

theorem length_tupleOfWords (words : List String) : (tupleOfWords words).length = words.length :=
  List.length_map _

/-- A listing has one entry for each registered relation. -/
theorem answeredBy_of_list {report : Report} (h : Command.list.report s = .ok report) :
    Command.AnsweredBy s .list report := by
  obtain rfl := Except.ok.inj h
  rw [list, funext (listLine_eq s)]
  exact .list

/-- To show a relation is to print the table of its rows. -/
theorem answeredBy_of_showRows {relation : String} {report : Report}
    (h : showRows s relation = .ok report) : Command.AnsweredBy s (.show relation) report := by
  obtain ⟨b, hb, hreport⟩ := bind_eq_ok_iff.mp h
  rw [lookup_eq_ok_iff] at hb
  obtain rfl := Except.ok.inj hreport
  rw [rowLines_eq, Relation.name, name_of_find hb]
  exact .rows hb

/-- The answer to a test is yes just when the relation accepts the tuple. -/
theorem answeredBy_of_test {relation : String} {words : List String} {report : Report}
    (h : test s relation words = .ok report) :
    Command.AnsweredBy s (.test relation words) report := by
  obtain ⟨b, hb, hreport⟩ := bind_eq_ok_iff.mp h
  rw [lookup_eq_ok_iff] at hb
  obtain rfl := Except.ok.inj hreport
  have htest : Command.AnsweredBy s (.test relation words) _ := .test hb
  rw [← append_verdict, ← name_of_find hb, ← length_tupleOfWords] at htest
  rw [← name_of_find hb]
  exact htest

/-- An evaluation prints the table of the derived relation, then the answer for each candidate. -/
theorem answeredBy_of_eval {combinator : Combinator} {relations candidates : List String}
    {report : Report} (h : eval s combinator relations candidates = .ok report) :
    Command.AnsweredBy s (.eval combinator relations candidates) report := by
  obtain ⟨views, hviews, hrest⟩ := bind_eq_ok_iff.mp h
  obtain ⟨⟨r, s'⟩, hderive, hreport⟩ := bind_eq_ok_iff.mp hrest
  obtain ⟨bases, hbases, -, rfl⟩ := mapM_operand_eq_ok_iff.mp hviews
  obtain ⟨hr, rfl⟩ := Store.derive_eq_ok_iff.mp (derive_eq_ok_iff.mp hderive)
  cases candidates with
  | nil =>
    obtain rfl := Except.ok.inj hreport
    rw [rowLines_eq, Store.rows_next]
    exact .derived hbases hr
  | cons candidate candidates =>
    obtain rfl := Except.ok.inj hreport
    have hline (c : String) :
        s!"  {(tupleOfCandidate c).display}: {verdict (s.accepts r (tupleOfCandidate c))}" =
          candidateLine s r c := append_verdict _ _
    have hlines := Command.AnsweredBy.candidates hbases hr (List.cons_ne_nil candidate candidates)
    rw [← funext hline] at hlines
    simp only [Store.read_next]
    exact hlines

/-- A relation that a combinator builds is derived in a command. -/
theorem derive_of_ok {combinator : Combinator} {views : List View} {r : Relation}
    (h : Relation.derive s.next combinator views registry = .ok r) :
    derive s combinator views = .ok (r, { s with next := s.next + 1 }) :=
  derive_eq_ok_iff.mpr (Store.derive_eq_ok_iff.mpr ⟨h, rfl⟩)

theorem Walk.name_male {female : Base} (h : female.name = "is_female") :
    (male s female).name = "not_is_female" := by
  change "not_" ++ female.name = _
  rw [h]
  rfl

theorem Walk.name_child {parent : Base} (h : parent.name = "is_parent") :
    (child s parent).name = "converse_of_is_parent" := by
  change "converse_of_" ++ parent.name = _
  rw [h]
  rfl

theorem Walk.name_grandparent {parent : Base} (h : parent.name = "is_parent") :
    (grandparent s parent).name = "is_parent_then_is_parent" := by
  change parent.name ++ "_then_" ++ parent.name = _
  rw [h]
  rfl

theorem Walk.name_father {parent female : Base} (hparent : parent.name = "is_parent")
    (hfemale : female.name = "is_female") :
    (father s parent female).name = "is_parent_and_not_is_female" := by
  change "_and_".intercalate [parent.name, (male s female).name] = _
  rw [hparent, name_male hfemale]
  rfl

/-- Where parents are binary and females unary, nothing halts the walk: converse and composition
take the parents, and the intersection takes any two operands. -/
theorem demo_eq_ok {human parent female : Base} (hhuman : s.find? registry "is_human" = some human)
    (hparent : s.find? registry "is_parent" = some parent)
    (hfemale : s.find? registry "is_female" = some female) (hbinary : parent.arity = 2)
    (hunary : female.arity = 1) : demo s = .ok { lines := Walk.lines s human parent female } := by
  have hunbound {b : Base} (h : b.arity ≤ 2) :
      unbound (.base b) = .ok (Relation.base b).identityView :=
    unbound_eq_ok_iff.mpr ⟨Nat.le_trans h (by decide), rfl⟩
  have hbind {r : Relation} {slots : Slots} (h : slots.length = r.arity) :
      algebra (r.bind slots) = .ok ⟨r, slots⟩ :=
    mapError_eq_ok_iff.mpr (Relation.bind_eq_ok h)
  have hmale : (Walk.male s female).arity = 1 :=
    Store.arity_complement_identityView.trans hunary
  refine bind_eq_ok_iff.mpr ⟨human, lookup_eq_ok_iff.mpr hhuman, ?_⟩
  refine bind_eq_ok_iff.mpr ⟨parent, lookup_eq_ok_iff.mpr hparent, ?_⟩
  refine bind_eq_ok_iff.mpr ⟨female, lookup_eq_ok_iff.mpr hfemale, ?_⟩
  refine bind_eq_ok_iff.mpr ⟨_, hunbound (by omega), ?_⟩
  refine bind_eq_ok_iff.mpr ⟨⟨Walk.male s female, _⟩, derive_of_ok rfl, ?_⟩
  refine bind_eq_ok_iff.mpr ⟨_, hunbound (by omega), ?_⟩
  refine bind_eq_ok_iff.mpr
    ⟨⟨Walk.child s parent, _⟩, derive_of_ok (Relation.derive_converse hbinary), ?_⟩
  refine bind_eq_ok_iff.mpr ⟨_, hunbound (by omega), ?_⟩
  refine bind_eq_ok_iff.mpr ⟨_, hunbound (by omega), ?_⟩
  refine bind_eq_ok_iff.mpr ⟨⟨Walk.grandparent s parent, _⟩,
    derive_of_ok (Relation.derive_composition hbinary hbinary), ?_⟩
  refine bind_eq_ok_iff.mpr ⟨_, hbind hbinary.symm, ?_⟩
  refine bind_eq_ok_iff.mpr ⟨_, hbind hmale.symm, ?_⟩
  refine bind_eq_ok_iff.mpr ⟨⟨Walk.father s parent female, _⟩,
    derive_of_ok (Relation.derive_intersection (by simp)), ?_⟩
  refine congrArg (fun lines => Except.ok { lines := lines : Report }) ?_
  have hname := name_of_find hparent
  have hname' := name_of_find hfemale
  simp only [Walk.lines, membersLine_eq, askLine_eq, rowLines_eq, Walk.name_male hname',
    Walk.name_child hname, Walk.name_grandparent hname, Walk.name_father hname hname',
    Relation.name, hname, hname', roll, Store.accepts_next, Store.rows_next]
  rfl

/-- The walk needs parents to be binary and females to be unary, since it binds the slots of the
ones and of those who are not the others. -/
theorem demo_eq_ok_iff {report : Report} :
    demo s = .ok report ↔ ∃ human parent female, s.find? registry "is_human" = some human ∧
      s.find? registry "is_parent" = some parent ∧ s.find? registry "is_female" = some female ∧
      parent.arity = 2 ∧ female.arity = 1 ∧
      report = { lines := Walk.lines s human parent female } := by
  constructor
  · intro hok
    obtain ⟨human, hhuman, h⟩ := bind_eq_ok_iff.mp hok
    obtain ⟨parent, hparent, h⟩ := bind_eq_ok_iff.mp h
    obtain ⟨female, hfemale, h⟩ := bind_eq_ok_iff.mp h
    obtain ⟨notFemale, hnotFemale, h⟩ := bind_eq_ok_iff.mp h
    obtain ⟨⟨male, s₁⟩, hmale, h⟩ := bind_eq_ok_iff.mp h
    obtain ⟨_, -, h⟩ := bind_eq_ok_iff.mp h
    obtain ⟨⟨child, s₂⟩, -, h⟩ := bind_eq_ok_iff.mp h
    obtain ⟨_, -, h⟩ := bind_eq_ok_iff.mp h
    obtain ⟨_, -, h⟩ := bind_eq_ok_iff.mp h
    obtain ⟨⟨grandparent, s₃⟩, -, h⟩ := bind_eq_ok_iff.mp h
    obtain ⟨parentAB, hparentAB, h⟩ := bind_eq_ok_iff.mp h
    obtain ⟨maleA, hmaleA, -⟩ := bind_eq_ok_iff.mp h
    rw [lookup_eq_ok_iff] at hhuman hparent hfemale
    obtain ⟨-, rfl⟩ := unbound_eq_ok_iff.mp hnotFemale
    obtain rfl := Except.ok.inj (Store.derive_eq_ok_iff.mp (derive_eq_ok_iff.mp hmale)).1
    have hbinary := (Relation.view_of_bind (mapError_eq_ok_iff.mp hparentAB)).1
    have hunary := (Relation.view_of_bind (mapError_eq_ok_iff.mp hmaleA)).1
    rw [Store.arity_complement_identityView] at hunary
    rw [demo_eq_ok hhuman hparent hfemale hbinary.symm hunary.symm] at hok
    exact ⟨human, parent, female, hhuman, hparent, hfemale, hbinary.symm, hunary.symm,
      (Except.ok.inj hok).symm⟩
  · rintro ⟨human, parent, female, hhuman, hparent, hfemale, hbinary, hunary, rfl⟩
    exact demo_eq_ok hhuman hparent hfemale hbinary hunary

/-- Whatever a command reports is the whole answer to it. -/
theorem answeredBy_of_report {report : Report} :
    ∀ {c : Command}, c.report s = .ok report → c.AnsweredBy s report
  | .list, h => answeredBy_of_list h
  | .show _, h => answeredBy_of_showRows h
  | .test _ _, h => answeredBy_of_test h
  | .eval .., h => answeredBy_of_eval h
  | .demo, h => by
    obtain ⟨human, parent, female, hhuman, hparent, hfemale, -, -, rfl⟩ := demo_eq_ok_iff.mp h
    exact .demo hhuman hparent hfemale

end CommandLine

end RelationAlgebra
