import RelationAlgebra.Proofs.Format
import RelationAlgebra.Proofs.Report

/-!
# What a command answers

A command has an answer if its dataset loads and is installed, if the relations that it names are
registered, and if these are what it needs (`CommandLine.Command.Answerable`): a combinator must
take its operands, and the walk through the family example needs parents to be binary and females to
be unary. The program should then leave the whole answer behind with the code zero, and in all other
cases the code one and no line of an answer (`CommandLine.Answers`).

It does so unless the slots of some operand are bound by position that are more than a list can hold
bindings for (`CommandLine.Command.Overflows`). This happens before the combinator looks at its
operands, so the program breaks down also where it should refuse them: its code is 101, and there is
still no line of an answer (`CommandLine.answers_wholly_iff`).

Tuples of a wrong length are no failure: no relation accepts one (`Store.length_of_accepts`).
-/

namespace RelationAlgebra

namespace Store

variable {s : Store} {r : Relation} {t : Tuple}

/-- A relation accepts only tuples of its own length. -/
theorem length_of_accepts (hr : s.Built r) (h : s.accepts r t = true) :
    t.length = r.arity := by
  cases r with
  | base b =>
    rw [accepts, read] at h
    have hlen := (Bool.and_eq_true_iff.mp h).1
    rw [beq_iff_eq, hr.holds.arity_extension] at hlen
    exact hlen
  | union | intersection | complement | composition | converse =>
    rw [accepts, read] at h
    exact eq_of_beq (Bool.and_eq_true_iff.mp h).1

end Store

namespace CommandLine

variable {s : Store} {i : Invocation} {content : Option String}

/-! ## What a command needs -/

/-- Whether a command has an answer over a store. -/
def Command.Answerable (s : Store) : Command → Prop
  | list => True
  | .show relation | test relation _ => ∃ b, s.find? registry relation = some b
  | eval combinator relations _ => ∃ bases, relations.mapM (s.find? registry) = some bases ∧
      ∃ r s', s.derive combinator (bases.map fun b => (Relation.base b).identityView) registry =
        .ok (r, s')
  | demo => (∃ b, s.find? registry "is_human" = some b) ∧
      (∃ b, s.find? registry "is_parent" = some b ∧ b.arity = 2) ∧
      ∃ b, s.find? registry "is_female" = some b ∧ b.arity = 1

/-- Whether among several names, before the first that is of no relation, there is one of a relation
with more slots than a list can hold bindings for. -/
def Overflows (s : Store) (names : List String) : Prop :=
  ∃ name ∈ names.takeWhile fun name => (s.find? registry name).isSome,
    ∃ b, s.find? registry name = some b ∧ Slots.capacity < b.arity

/-- Whether a command binds slots that are more than a list can hold bindings for. -/
def Command.Overflows (s : Store) : Command → Prop
  | list | .show _ | test _ _ => False
  | eval _ relations _ => CommandLine.Overflows s relations
  | demo => ∃ human parent female, s.find? registry "is_human" = some human ∧
      s.find? registry "is_parent" = some parent ∧ s.find? registry "is_female" = some female ∧
      (Slots.capacity < parent.arity ∨ Slots.capacity < female.arity)

/-- Whether a dataset is the one that an invocation works on. -/
def Invocation.Names (i : Invocation) (content : Option String) (d : Dataset) : Prop :=
  match i.dataset with
  | none => d = .family
  | some _ => ∃ text, content = some text ∧ Dataset.parse? text = some d

/-- Whether a store is the one that the dataset of an invocation is installed into. -/
def Invocation.Loads (i : Invocation) (content : Option String) (s : Store) : Prop :=
  ∃ d bs, i.Names content d ∧ Store.empty.install registry d = .ok (bs, s)

theorem load_eq_ok_iff {d : Dataset} : i.load content = .ok d ↔ i.Names content d := by
  unfold Invocation.load Invocation.Names
  cases i.dataset with
  | none => simp [eq_comm]
  | some path =>
    dsimp only
    rw [mapError_eq_ok_iff]
    cases content with
    | none => simp [Dataset.ofFile]
    | some text => cases h : Dataset.parse? text <;> simp [Dataset.ofFile, h]

theorem report_of_loads (h : i.Loads content s) : i.report content = i.command.report s := by
  obtain ⟨d, bs, hd, hinstall⟩ := h
  rw [Invocation.report, load_eq_ok_iff.mpr hd]
  change install d >>= _ = _
  rw [install_eq_ok_iff.mpr hinstall]
  rfl

/-! ## Overflow -/

theorem unbound_eq_overflow {r : Relation} (h : Slots.capacity < r.arity) :
    unbound r = .error .overflow := by
  unfold unbound Relation.identityView? Slots.identity?
  rw [if_neg (Nat.not_le.mpr h)]
  rfl

/-- A registered relation too wide to be placed overflows as an operand. -/
theorem operand_eq_overflow {name : String} {b : Base} (hb : s.find? registry name = some b)
    (h : Slots.capacity < b.arity) : operand s name = .error .overflow := by
  rw [operand, lookup_eq_ok_iff.mpr hb]
  exact unbound_eq_overflow h

/-- Operands are looked up in order, so an unknown name before the wide relation is reported
first. -/
theorem overflows_cons_iff {name : String} {names : List String} :
    Overflows s (name :: names) ↔
      ∃ b, s.find? registry name = some b ∧ (Slots.capacity < b.arity ∨ Overflows s names) := by
  rw [Overflows, List.takeWhile_cons]
  cases hname : s.find? registry name with
  | none => simp
  | some b => simp [hname, Overflows]

/-- Where all names are of relations, any one of these may have too many slots. -/
theorem not_overflows_iff {names : List String} {bases : List Base}
    (h : names.mapM (s.find? registry) = some bases) :
    ¬ Overflows s names ↔ ∀ b ∈ bases, b.arity ≤ Slots.capacity := by
  rw [mapM_eq_some_iff] at h
  induction h with
  | nil => simp [Overflows]
  | cons hb _ ih => simp [overflows_cons_iff, hb, ih]

/-- Names are looked up in order, and the slots of each relation are bound before the next name is
looked up. -/
theorem mapM_operand_eq_overflow {names : List String} (h : Overflows s names) :
    names.mapM (operand s) = .error .overflow := by
  induction names with
  | nil => simp [Overflows] at h
  | cons name names ih =>
    obtain ⟨b, hb, h⟩ := overflows_cons_iff.mp h
    rw [List.mapM_cons]
    by_cases hfits : b.arity ≤ Slots.capacity
    · refine bind_eq_error_of_ok (operand_eq_ok_iff.mpr ⟨b, hb, hfits, rfl⟩) ?_
      exact bind_eq_error (ih (h.resolve_left (Nat.not_lt.mpr hfits)))
    · exact bind_eq_error (operand_eq_overflow hb (Nat.not_le.mp hfits))

/-- The walk binds the slots of the females first, and then those of the parents. -/
theorem demo_eq_overflow (h : Command.Overflows s .demo) : demo s = .error .overflow := by
  obtain ⟨human, parent, female, hhuman, hparent, hfemale, h⟩ := h
  refine bind_eq_error_of_ok (lookup_eq_ok_iff.mpr hhuman) ?_
  refine bind_eq_error_of_ok (lookup_eq_ok_iff.mpr hparent) ?_
  refine bind_eq_error_of_ok (lookup_eq_ok_iff.mpr hfemale) ?_
  by_cases hfits : (Relation.base female).arity ≤ Slots.capacity
  · refine bind_eq_error_of_ok (unbound_eq_ok_iff.mpr ⟨hfits, rfl⟩) ?_
    refine bind_eq_error_of_ok (derive_of_ok rfl) ?_
    exact bind_eq_error (unbound_eq_overflow (h.resolve_right (Nat.not_lt.mpr hfits)))
  · exact bind_eq_error (unbound_eq_overflow (Nat.not_le.mp hfits))

theorem report_of_overflows {c : Command} (h : c.Overflows s) :
    c.report s = .error .overflow := by
  cases c with
  | list | «show» | test => cases h
  | eval combinator relations candidates => exact bind_eq_error (mapM_operand_eq_overflow h)
  | demo => exact demo_eq_overflow h

/-! ## What halts a command -/

/-- Whether a halt is a failure or, under a condition, an overflow. -/
def Halt.Under (p : Prop) (halt : Halt) : Prop :=
  (∃ cause, halt = .failure cause) ∨ halt = .overflow ∧ p

theorem Halt.Under.mono {p q : Prop} {halt : Halt} (h : halt.Under p) (hpq : p → q) :
    halt.Under q :=
  h.imp id fun h => ⟨h.1, hpq h.2⟩

theorem failsBy_lookup (p : Prop) (name : String) :
    FailsBy (Halt.Under p) (lookup s name) := by
  intro halt h
  unfold lookup at h
  split at h
  · cases h
  · exact .inl ⟨_, (Except.error.inj h).symm⟩

/-- An error of the dataset or of the algebra is a failure. -/
theorem failsBy_mapError (p : Prop) {α ε : Type} (x : Except ε α) (f : ε → Failure) :
    FailsBy (Halt.Under p) (x.mapError fun cause => .failure (f cause)) := by
  intro halt h
  cases x with
  | error cause => exact .inl ⟨f cause, (Except.error.inj h).symm⟩
  | ok a => cases h

theorem failsBy_algebra (p : Prop) {α : Type} (x : Except RelationError α) :
    FailsBy (Halt.Under p) (algebra x) :=
  failsBy_mapError p x .algebra

/-- To place a relation can only overflow, and only where the relation is too wide. -/
theorem failsBy_unbound {p : Prop} {r : Relation} (h : Slots.capacity < r.arity → p) :
    FailsBy (Halt.Under p) (unbound r) := by
  intro halt hhalt
  by_cases hfits : r.arity ≤ Slots.capacity
  · rw [unbound_eq_ok_iff.mpr ⟨hfits, rfl⟩] at hhalt
    cases hhalt
  · rw [unbound_eq_overflow (Nat.not_le.mp hfits)] at hhalt
    exact .inr ⟨(Except.error.inj hhalt).symm, h (Nat.not_le.mp hfits)⟩

theorem failsBy_mapM_operand (names : List String) :
    FailsBy (Halt.Under (Overflows s names)) (names.mapM (operand s)) := by
  induction names with
  | nil => exact failsBy_pure []
  | cons name names ih =>
    rw [List.mapM_cons]
    refine failsBy_bind (failsBy_bind (failsBy_lookup _ name) fun b hb => ?_) fun v hv => ?_
    · rw [lookup_eq_ok_iff] at hb
      exact failsBy_unbound fun hlong => overflows_cons_iff.mpr ⟨b, hb, .inl hlong⟩
    · obtain ⟨b, hb, -⟩ := operand_eq_ok_iff.mp hv
      refine failsBy_bind (ih.mono fun halt hhalt => hhalt.mono fun hrest => ?_) fun _ _ =>
        failsBy_pure _
      exact overflows_cons_iff.mpr ⟨b, hb, .inr hrest⟩

theorem failsBy_demo : FailsBy (Halt.Under (Command.Overflows s .demo)) (demo s) := by
  refine failsBy_bind (failsBy_lookup _ _) fun human hhuman => ?_
  refine failsBy_bind (failsBy_lookup _ _) fun parent hparent => ?_
  refine failsBy_bind (failsBy_lookup _ _) fun female hfemale => ?_
  rw [lookup_eq_ok_iff] at hhuman hparent hfemale
  have hparents : FailsBy (Halt.Under (Command.Overflows s .demo)) (unbound (.base parent)) :=
    failsBy_unbound fun h => ⟨human, parent, female, hhuman, hparent, hfemale, .inl h⟩
  have hfemales : FailsBy (Halt.Under (Command.Overflows s .demo)) (unbound (.base female)) :=
    failsBy_unbound fun h => ⟨human, parent, female, hhuman, hparent, hfemale, .inr h⟩
  refine failsBy_bind hfemales fun _ _ => failsBy_bind (failsBy_algebra _ _) fun _ _ => ?_
  refine failsBy_bind hparents fun _ _ => failsBy_bind (failsBy_algebra _ _) fun _ _ => ?_
  refine failsBy_bind hparents fun _ _ => failsBy_bind hparents fun _ _ => ?_
  refine failsBy_bind (failsBy_algebra _ _) fun _ _ => ?_
  -- the fathers bind their operands by name, where too many slots are an error of the algebra
  refine failsBy_bind (failsBy_algebra _ _) fun _ _ => ?_
  refine failsBy_bind (failsBy_algebra _ _) fun _ _ => ?_
  refine failsBy_bind (failsBy_algebra _ _) fun _ _ => ?_
  exact failsBy_pure _

/-- A command halts by a failure, unless it overflows. -/
theorem failsBy_report : ∀ c : Command, FailsBy (Halt.Under (c.Overflows s)) (c.report s)
  | .list => failsBy_pure _
  | .show _ => failsBy_bind (failsBy_lookup _ _) fun _ _ => failsBy_pure _
  | .test _ _ => failsBy_bind (failsBy_lookup _ _) fun _ _ => failsBy_pure _
  | .eval _ relations _ => by
    refine failsBy_bind (failsBy_mapM_operand relations) fun _ _ => ?_
    refine failsBy_bind (failsBy_algebra _ _) fun _ _ => ?_
    dsimp only
    split <;> exact failsBy_pure _
  | .demo => failsBy_demo

/-! ## Success -/

/-- A step and what depends on it succeed if both do. -/
theorem exists_bind_eq_ok_iff {α β : Type} {x : Except Halt α} {f : α → Except Halt β} :
    (∃ b, x >>= f = .ok b) ↔ ∃ a, x = .ok a ∧ ∃ b, f a = .ok b := by
  simp only [bind_eq_ok_iff]
  rw [exists_comm]
  simp only [exists_and_left]

/-- The report of a relation needs the relation alone. -/
theorem exists_lookup_iff {relation : String} {f : Base → Report} :
    (∃ report, (lookup s relation >>= fun b => pure (f b)) = .ok report) ↔
      ∃ b, s.find? registry relation = some b := by
  rw [exists_bind_eq_ok_iff]
  refine exists_congr fun b => ?_
  rw [lookup_eq_ok_iff]
  exact and_iff_left ⟨_, rfl⟩

/-- The report of a derived relation needs operands that can be bound and that the combinator
takes. -/
theorem exists_eval_iff {combinator : Combinator} {relations candidates : List String} :
    (∃ report, eval s combinator relations candidates = .ok report) ↔
      Command.Answerable s (.eval combinator relations candidates) ∧ ¬ Overflows s relations := by
  rw [eval, exists_bind_eq_ok_iff]
  constructor
  · rintro ⟨views, hviews, h⟩
    obtain ⟨bases, hbases, hfits, rfl⟩ := mapM_operand_eq_ok_iff.mp hviews
    obtain ⟨⟨r, s'⟩, hr, -⟩ := exists_bind_eq_ok_iff.mp h
    exact ⟨⟨bases, hbases, r, s', derive_eq_ok_iff.mp hr⟩, (not_overflows_iff hbases).mpr hfits⟩
  · rintro ⟨⟨bases, hbases, r, s', hr⟩, hfits⟩
    refine ⟨_, mapM_operand_eq_ok_iff.mpr
      ⟨bases, hbases, (not_overflows_iff hbases).mp hfits, rfl⟩, ?_⟩
    refine exists_bind_eq_ok_iff.mpr ⟨(r, s'), derive_eq_ok_iff.mpr hr, ?_⟩
    dsimp only
    split <;> exact ⟨_, rfl⟩

/-- What the walk needs can be bound. -/
theorem exists_demo_iff :
    (∃ report, demo s = .ok report) ↔
      Command.Answerable s .demo ∧ ¬ Command.Overflows s .demo := by
  constructor
  · rintro ⟨report, h⟩
    refine ⟨?_, fun hoverflows => ?_⟩
    · obtain ⟨human, parent, female, hhuman, hparent, hfemale, hbinary, hunary, -⟩ :=
        demo_eq_ok_iff.mp h
      exact ⟨⟨human, hhuman⟩, ⟨parent, hparent, hbinary⟩, ⟨female, hfemale, hunary⟩⟩
    · rw [demo_eq_overflow hoverflows] at h
      cases h
  · rintro ⟨⟨⟨human, hhuman⟩, ⟨parent, hparent, hbinary⟩, ⟨female, hfemale, hunary⟩⟩, -⟩
    exact ⟨_, demo_eq_ok hhuman hparent hfemale hbinary hunary⟩

/-- A command has a report if it has what it needs, and its operands can be bound. -/
theorem exists_report_iff (c : Command) :
    (∃ report, c.report s = .ok report) ↔ c.Answerable s ∧ ¬ c.Overflows s :=
  match c with
  | .list => iff_of_true ⟨_, rfl⟩ ⟨trivial, id⟩
  | .show _ => exists_lookup_iff.trans (and_iff_left id).symm
  | .test _ _ => exists_lookup_iff.trans (and_iff_left id).symm
  | .eval .. => exists_eval_iff
  | .demo => exists_demo_iff

/-- An invocation succeeds just when its dataset loads, its command can be answered there, and no
operand is too wide. -/
theorem exists_invocation_report_iff :
    (∃ report, i.report content = .ok report) ↔
      ∃ s, i.Loads content s ∧ i.command.Answerable s ∧ ¬ i.command.Overflows s := by
  rw [Invocation.report, exists_bind_eq_ok_iff]
  simp only [exists_bind_eq_ok_iff, Prod.exists, install_eq_ok_iff, exists_report_iff,
    load_eq_ok_iff]
  constructor
  · rintro ⟨d, hd, bs, s, hinstall, hc⟩
    exact ⟨s, ⟨d, bs, hd, hinstall⟩, hc⟩
  · rintro ⟨s, ⟨d, bs, hd, hinstall⟩, hc⟩
    exact ⟨d, hd, bs, s, hinstall, hc⟩

/-! ## Answers -/

/-- What a run leaves behind that answers an invocation wholly or not at all, where the file with
the dataset has the given content. -/
structure Answers (i : Invocation) (content : Option String) (o : Outcome) : Prop where
  code_eq_zero_iff : o.code = 0 ↔ ∃ s, i.Loads content s ∧ i.command.Answerable s
  /-- A success prints the whole answer, and each of its lines ends. -/
  of_success : ∀ {s}, i.Loads content s → o.code = 0 →
    ∃ report, i.command.AnsweredBy s report ∧
      o.stdout = String.join (report.lines.map (· ++ "\n")) ∧
      o.stderr = String.join (report.note.toList.map (· ++ "\n"))
  /-- A failure prints nothing, and there is but one kind of failure. -/
  of_failure : o.code ≠ 0 → o.code = 1 ∧ o.stdout = ""
  /-- Too few or too many atoms are no failure. -/
  test_of_length_ne : ∀ {s relation words b}, i.Loads content s →
    i.command = .test relation words → s.find? registry relation = some b →
    words.length ≠ b.arity →
    o.code = 0 ∧ o.stdout = relation ++ (tupleOfWords words).display ++ ": no\n"
  /-- Neither are candidates of too few or too many atoms, beside which others are answered. -/
  eval_candidates : ∀ {s combinator relations candidates bases r s'}, i.Loads content s →
    i.command = .eval combinator relations candidates →
    relations.mapM (s.find? registry) = some bases →
    s.derive combinator (bases.map fun b => (Relation.base b).identityView) registry =
      .ok (r, s') →
    candidates ≠ [] →
    o.code = 0 ∧
      o.stdout = String.join ((r.display :: candidates.map (candidateLine s r)).map (· ++ "\n")) ∧
      ∀ candidate ∈ candidates, (tupleOfCandidate candidate).length ≠ r.arity →
        candidateLine s r candidate = "  " ++ (tupleOfCandidate candidate).display ++ ": no"

/-- The relations of a dataset are built over the store that it is installed into. -/
theorem Invocation.Loads.valid (h : i.Loads content s) : s.Valid :=
  let ⟨_, _, _, hinstall⟩ := h
  (reached_of_install hinstall).valid.store

theorem holds_of_find (hs : s.Valid) {name : String} {b : Base}
    (h : s.find? registry name = some b) : s.Holds b :=
  hs.registered (List.mem_of_find?_eq_some h)

/-- The views that a command derives a relation of. -/
theorem builtView_of_mapM_find (hs : s.Valid) {names : List String} {bases : List Base}
    (h : names.mapM (s.find? registry) = some bases) :
    ∀ v ∈ bases.map fun b => (Relation.base b).identityView, s.BuiltView v := by
  intro v hv
  obtain ⟨b, hb, rfl⟩ := List.mem_map.mp hv
  obtain ⟨name, -, hname⟩ := exists_of_mapM_eq_some h b hb
  exact (Store.Built.base (holds_of_find hs hname)).identityView

theorem answerLine_of_length_ne {r : Relation} (hr : s.Built r) {t : Tuple} (question : String)
    (h : t.length ≠ r.arity) : answerLine question (s.accepts r t) = question ++ ": no" := by
  have hno : s.accepts r t = false :=
    Bool.eq_false_iff.mpr fun ht => h (Store.length_of_accepts hr ht)
  rw [hno]
  rfl

theorem code_ofReport {x : Except Halt Report} :
    (Outcome.ofReport x).code = 0 ↔ ∃ report, x = .ok report := by
  cases x with
  | ok report => simp [Outcome.ofReport]
  | error halt => cases halt <;> simp [Outcome.ofReport, Halt.code]

/-- An invocation halts by a failure, unless its command overflows. -/
theorem failsBy_invocation_report :
    FailsBy (Halt.Under (∃ s, i.Loads content s ∧ i.command.Overflows s)) (i.report content) := by
  have hload : FailsBy (Halt.Under (∃ s, i.Loads content s ∧ i.command.Overflows s))
      (i.load content) := by
    unfold Invocation.load
    split
    · exact failsBy_pure _
    · exact failsBy_mapError _ _ .file
  refine failsBy_bind hload fun d hd => ?_
  refine failsBy_bind (failsBy_mapError _ _ .install) fun (bs, s) hs => ?_
  refine (failsBy_report i.command).mono fun halt hhalt => hhalt.mono fun hc => ?_
  exact ⟨s, ⟨d, bs, load_eq_ok_iff.mp hd, install_eq_ok_iff.mp hs⟩, hc⟩

theorem answers_of_not_overflows (h : ¬ ∃ s, i.Loads content s ∧ i.command.Overflows s) :
    Answers i content (.ofReport (i.report content)) := by
  have hanswered {s : Store} (hs : i.Loads content s) (hc : i.command.Answerable s) :
      ∃ report, i.report content = .ok report ∧ i.command.AnsweredBy s report := by
    obtain ⟨report, hreport⟩ := (exists_report_iff _).mpr ⟨hc, fun ho => h ⟨s, hs, ho⟩⟩
    exact ⟨report, (report_of_loads hs).trans hreport, answeredBy_of_report hreport⟩
  constructor
  case code_eq_zero_iff =>
    rw [code_ofReport, exists_invocation_report_iff]
    refine exists_congr fun s => and_congr_right fun hs => and_iff_left fun ho => h ⟨s, hs, ho⟩
  case of_success =>
    intro s hs hcode
    obtain ⟨report, hreport⟩ := code_ofReport.mp hcode
    have hcommand := (report_of_loads hs).symm.trans hreport
    rw [hreport]
    exact ⟨report, answeredBy_of_report hcommand, rfl, rfl⟩
  case of_failure =>
    intro hcode
    cases hreport : i.report content with
    | ok report => exact absurd (code_ofReport.mpr ⟨report, hreport⟩) hcode
    | error halt =>
      rcases failsBy_invocation_report halt hreport with ⟨cause, rfl⟩ | ⟨-, ho⟩
      · exact ⟨rfl, rfl⟩
      · exact absurd ho h
  case test_of_length_ne =>
    intro s relation words b hs hc hb hlen
    obtain ⟨report, hreport, hanswer⟩ := hanswered hs (hc ▸ ⟨b, hb⟩)
    rw [hc] at hanswer
    cases hanswer with
    | test hb' =>
      obtain rfl := Option.some.inj (hb.symm.trans hb')
      have hno := answerLine_of_length_ne (.base (holds_of_find hs.valid hb))
        (relation ++ (tupleOfWords words).display) ((length_tupleOfWords words).trans_ne hlen)
      rw [hreport, hno]
      exact ⟨rfl, by simp [Outcome.ofReport, unlines, String.append_assoc]⟩
  case eval_candidates =>
    intro s combinator relations candidates bases r s' hs hc hbases hr hne
    obtain ⟨report, hreport, hanswer⟩ := hanswered hs (hc ▸ ⟨bases, hbases, r, s', hr⟩)
    rw [hc] at hanswer
    have hbuilt := (hs.valid.derive (builtView_of_mapM_find hs.valid hbases) hr).2.2
    obtain ⟨hderive, rfl⟩ := Store.derive_eq_ok_iff.mp hr
    cases hanswer with
    | derived => exact absurd rfl hne
    | candidates hbases' hderive' =>
      obtain rfl := Option.some.inj (hbases.symm.trans hbases')
      obtain rfl := Except.ok.inj (hderive.symm.trans hderive')
      rw [hreport]
      refine ⟨rfl, rfl, fun candidate _ hlen => ?_⟩
      rw [candidateLine, ← Store.accepts_next s (s.next + 1)]
      exact answerLine_of_length_ne hbuilt _ hlen

/-- No command ever reads a slot that a row does not have. -/
theorem not_fault (i : Invocation) (content : Option String) :
    ((Console.invocation i content).perform {}).1 ≠ .error .fault := by
  rw [gives_invocation i content {}]
  cases hreport : i.report content with
  | ok report => simp
  | error halt =>
    rcases failsBy_invocation_report halt hreport with ⟨cause, rfl⟩ | ⟨rfl, -⟩ <;> simp

/-- Printing as it goes, the program answers wholly or not at all whatever its arguments ask for,
just if no operand overflows; if one does, the program breaks down before it prints a line. It never
reads a slot that a row does not have. -/
theorem answers_wholly_iff (read : String → Option String) (args : List String)
    (h : parse? args = some i) :
    execute read args = run read args ∧
      (Answers i (i.dataset.bind read) (execute read args) ↔
        ¬ ∃ s, i.Loads (i.dataset.bind read) s ∧ i.command.Overflows s) ∧
      ((∃ s, i.Loads (i.dataset.bind read) s ∧ i.command.Overflows s) →
        (execute read args).code = 101 ∧ (execute read args).stdout = "") ∧
      ((Console.invocation i (i.dataset.bind read)).perform {}).1 ≠ .error .fault := by
  have hrun : execute read args = .ofReport (i.report (i.dataset.bind read)) := by
    rw [execute_eq_run, run, h]
  have hover (ho : ∃ s, i.Loads (i.dataset.bind read) s ∧ i.command.Overflows s) :
      (execute read args).code = 101 ∧ (execute read args).stdout = "" := by
    obtain ⟨s, hs, hc⟩ := ho
    rw [hrun, report_of_loads hs, report_of_overflows hc]
    exact ⟨rfl, rfl⟩
  refine ⟨execute_eq_run read args, ⟨fun hanswers ho => ?_, fun ho => ?_⟩, hover, not_fault i _⟩
  · have hcode := (hover ho).1
    have hfailed := (hanswers.of_failure (by rw [hcode]; decide)).1
    exact absurd (hcode.symm.trans hfailed) (by decide)
  · rw [hrun]
    exact answers_of_not_overflows ho

/-- One atom is too few to ask who is a parent of whom. -/
def loneParent : List String := ["test", "is_parent", "teresa"]

theorem answers_wholly_iff_loneParent :
    parse? loneParent = some { dataset := none, command := .test "is_parent" ["teresa"] } ∧
      Answers { dataset := none, command := .test "is_parent" ["teresa"] } none
        (execute (fun _ => none) loneParent) ∧
      execute (fun _ => none) loneParent =
        { code := 0
          stdout := "is_parent(teresa): no\n"
          stderr := "note: `is_parent` has arity 2, got 1 atom(s)\n" } := by
  have hparse : parse? loneParent =
      some { dataset := none, command := .test "is_parent" ["teresa"] } := by decide
  obtain ⟨hrun, hanswers, -⟩ := answers_wholly_iff (fun _ => none) loneParent hparse
  exact ⟨hparse, hanswers.mpr fun ⟨_, _, ho⟩ => ho, hrun.trans (by decide +kernel)⟩

/-- A relation without rows, with more slots than a list can hold bindings for. -/
def longRelation : String :=
  "\x7b\"relations\":[\x7b\"name\":\"big\",\"arity\":18446744073709551615\x7d]\x7d"

/-- Its converse should be refused, since the relation is not binary. -/
def longConverse : List String := ["--dataset", "data.json", "eval", "converse", "big"]

theorem not_forall_answers :
    ¬ ∀ (read : String → Option String) (args : List String) (i : Invocation),
      parse? args = some i → Answers i (i.dataset.bind read) (execute read args) := by
  intro h
  have hparse : parse? longConverse = some
      { dataset := some "data.json", command := .eval .converse ["big"] [] } := by decide
  have hcode : (execute (fun _ => some longRelation) longConverse).code = 101 := by decide +kernel
  have hfailed := ((h (fun _ => some longRelation) longConverse _ hparse).of_failure
    (by rw [hcode]; decide)).1
  exact absurd (hcode.symm.trans hfailed) (by decide)

end CommandLine

end RelationAlgebra
