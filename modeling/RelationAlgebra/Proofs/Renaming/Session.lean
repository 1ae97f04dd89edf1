import Mathlib.Logic.Equiv.Basic
import RelationAlgebra.Proofs.Format
import RelationAlgebra.Proofs.Renaming.Store
import RelationAlgebra.Proofs.Session

/-!
# Requests about other atoms

Of an atom nothing matters but which atoms it is equal to. An injective map on atoms, which may well
send texts to integers, is applied to every atom of every request. Then each request succeeds just if
the original one does, with the same truth values and numbers, and with the renamed rows in the same
order; or both fail for the same reason (`Session.run_rename`).
-/

namespace RelationAlgebra

variable {p : Atom → Atom}

/-! ## Errors -/

namespace SessionError

/-- The error with other atoms in the pair that it names. -/
def rename (p : Atom → Atom) : SessionError → SessionError
  | algebra cause => algebra (cause.rename p)
  | install cause => install (cause.rename p)
  | e => e

/-- The error without the text of the operand that it shows. -/
def kind : SessionError → SessionError
  | algebra cause => algebra cause.kind
  | install cause => install cause.kind
  | e => e

/-- Whether an error is another one with other atoms. How an operand is shown does not matter. -/
def Alike (p : Atom → Atom) (e e' : SessionError) : Prop := e'.kind = (e.rename p).kind

theorem alike_algebra {e e' : RelationError} (h : e.Alike p e') :
    Alike p (algebra e) (algebra e') := congrArg algebra h

theorem alike_install {e e' : InstallError} (h : e.Alike p e') :
    Alike p (install e) (install e') := congrArg install h

end SessionError

/-- Errors of the algebra stay alike as errors of a session. -/
theorem Parallel.algebra {α β : Type} {f : α → β} {x : Except RelationError α}
    {y : Except RelationError β} (h : Parallel (RelationError.Alike p) f x y) :
    Parallel (SessionError.Alike p) f (x.mapError .algebra) (y.mapError .algebra) :=
  h.mapError fun _ _ => SessionError.alike_algebra

/-! ## Requests and answers -/

/-- The operand with other atoms. -/
def Operand.rename (p : Atom → Atom) : Operand → Operand
  | handle name => handle name
  | bound relation slots => bound relation (slots.rename p)

/-- The question with other atoms. -/
def Query.rename (p : Atom → Atom) : Query → Query
  | test relation t => test relation (t.map p)
  | testAll relation ts => testAll relation (ts.map (List.map p))
  | filter relation candidates => filter relation (candidates.map (List.map p))
  | valuesAt relation position value => valuesAt relation position (p value)
  | canAdd relation a b => canAdd relation (p a) (p b)
  | correspondence operands => correspondence (operands.map (Operand.rename p))
  | extensionContains extension t => extensionContains extension (t.map p)
  | extensionValuesAt extension position value => extensionValuesAt extension position (p value)
  | holds rule a b extension => holds rule (p a) (p b) extension
  | induces properties a b extension => induces properties (p a) (p b) extension
  | checkInsert properties relation a b extension =>
    checkInsert properties relation (p a) (p b) extension
  | query => query

/-- The action with other atoms. -/
def Action.rename (p : Atom → Atom) : Action → Action
  | addAll relation tuples => addAll relation (tuples.map (List.map p))
  | bind relation slots => bind relation (slots.rename p)
  | view operand => view (operand.rename p)
  | call relation slots => call relation (slots.rename p)
  | derive combinator operands registry =>
    derive combinator (operands.map (Operand.rename p)) registry
  | install registry dataset => install registry (dataset.rename p)
  | extension arity tuples => extension arity (tuples.map (List.map p))
  | scan relation position value => scan relation position (p value)
  | action => action

/-- The text of a dataset with other atoms. A text that is no dataset is left as it is. -/
def Dataset.renameText (p : Atom → Atom) (text : String) : String :=
  match Dataset.parse? text with
  | some dataset => (dataset.rename p).write
  | none => text

/-- The request with other atoms. -/
def Request.rename (p : Atom → Atom) : Request → Request
  | ask query => ask (query.rename p)
  | act action name => act (action.rename p) name
  | load registry text => load registry (Dataset.renameText p text)

/-- The answer with other atoms. -/
def Answer.rename (p : Atom → Atom) : Answer → Answer
  | relation r => relation (r.rename p)
  | summary r size => summary (r.rename p) size
  | view v => view (v.rename p)
  | tuple? t => tuple? (t.map (List.map p))
  | tuples ts => tuples (ts.map (List.map p))
  | atoms xs => atoms (xs.map p)
  | rows x => rows (x.rename p)
  | answer => answer

/-- The answer lists relations with the number of their rows, and renaming changes neither. -/
theorem Answer.ofBases_rename (p : Atom → Atom) (s : Store) (bs : List Base) :
    ofBases (s.rename p) bs = (ofBases s bs).rename p := by
  have hlisting : (ofBases s bs).rename p = ofBases s bs := rfl
  rw [hlisting, ofBases, ofBases]
  congr 1
  refine List.map_congr_left fun b _ => ?_
  rw [Store.extension_rename, Extension.size_rename]

/-- Only datasets are renamed that a text can write. -/
theorem Dataset.parse?_renameText (p : Atom → Atom) (text : String) :
    parse? (renameText p text) = (parse? text).map (rename p) := by
  unfold renameText
  cases h : parse? text with
  | none => exact h
  | some dataset =>
    obtain ⟨v, -, hv⟩ := Option.bind_eq_some_iff.mp h
    have hrepresentable : (dataset.rename p).Representable := by
      intro d hd
      obtain ⟨d', hd', rfl⟩ := List.mem_map.mp hd
      exact representable_of_ofJson? hv d' hd'
    exact parse?_write hrepresentable

/-! ## Sessions -/

/-- The scan with other atoms. -/
def Scan.rename (p : Atom → Atom) (c : Scan) : Scan where
  pending := c.pending.map (List.map p)
  position := c.position
  value := p c.value

/-- A scan of renamed rows gives the renamed next row and goes on from the same place. -/
theorem Scan.next_rename (hp : Function.Injective p) (c : Scan) :
    (c.rename p).next = (c.next.1.map (List.map p), c.next.2.rename p) := by
  have hselects : (fun t => !(c.rename p).selects t) ∘ List.map p = fun t => !c.selects t :=
    funext fun t => congrArg not (Extension.getElem?_map_beq hp t c.position c.value)
  have hrest : (c.rename p).pending.dropWhile (fun t => !(c.rename p).selects t) =
      (c.pending.dropWhile fun t => !c.selects t).map (List.map p) := by
    rw [← hselects, rename, List.dropWhile_map]
  rw [next, next, hrest]
  cases c.pending.dropWhile fun t => !c.selects t <;> rfl

/-- What a name stands for, with other atoms. -/
def Handle.rename (p : Atom → Atom) : Handle → Handle
  | relation r => relation (r.rename p)
  | binary b => binary b
  | view v => view (v.rename p)
  | extension x => extension (x.rename p)
  | scan c => scan (c.rename p)

namespace Session

/-- The session with other atoms. -/
def rename (p : Atom → Atom) (s : Session) : Session where
  store := s.store.rename p
  handles := Association.mapValues (Handle.rename p) s.handles

theorem lookup_rename (p : Atom → Atom) (s : Session) (name : String) :
    (s.rename p).handles.lookup name = (s.handles.lookup name).map (Handle.rename p) :=
  Association.lookup_mapValues _ _ _

/-- Keeping a renamed handle renames the session that keeps the handle. -/
theorem keep_rename (p : Atom → Atom) (s : Session) (name : Option String) (h : Handle) :
    (s.rename p).keep name (h.rename p) = (s.keep name h).rename p := by
  cases name with
  | none => rfl
  | some name => simp only [keep, rename, Association.set_mapValues]

/-! ### Names -/

/-- A name stands for a relation just if it does so after renaming. -/
theorem relation_rename (p : Atom → Atom) (s : Session) (name : String) :
    Parallel (SessionError.Alike p) (Relation.rename p) (s.relation name)
      ((s.rename p).relation name) := by
  unfold relation
  rw [lookup_rename]
  cases s.handles.lookup name with
  | none => exact .error rfl
  | some h =>
    cases h with
    | relation r => exact .ok r
    | binary b => exact .of_eq (by rw [Relation.rename])
    | view | extension | scan => exact .error rfl

theorem binary_rename (p : Atom → Atom) (s : Session) (name : String) :
    Parallel (SessionError.Alike p) id (s.binary name) ((s.rename p).binary name) := by
  unfold binary
  rw [lookup_rename]
  cases s.handles.lookup name with
  | none => exact .error rfl
  | some h =>
    cases h with
    | binary b => exact .ok b
    | relation | view | extension | scan => exact .error rfl

theorem extension_rename (p : Atom → Atom) (s : Session) (name : String) :
    Parallel (SessionError.Alike p) (Extension.rename p) (s.extension name)
      ((s.rename p).extension name) := by
  unfold extension
  rw [lookup_rename]
  cases s.handles.lookup name with
  | none => exact .error rfl
  | some h =>
    cases h with
    | extension x => exact .ok x
    | relation | binary | view | scan => exact .error rfl

theorem scan_rename (p : Atom → Atom) (s : Session) (name : String) :
    Parallel (SessionError.Alike p) (Scan.rename p) (s.scan name) ((s.rename p).scan name) := by
  unfold scan
  rw [lookup_rename]
  cases s.handles.lookup name with
  | none => exact .error rfl
  | some h =>
    cases h with
    | scan c => exact .ok c
    | relation | binary | view | extension => exact .error rfl

/-- An operand of a request is found and bound alike, or refused alike. -/
theorem operand_rename (p : Atom → Atom) (s : Session) (o : Operand) :
    Parallel (SessionError.Alike p) (View.rename p) (s.operand o)
      ((s.rename p).operand (o.rename p)) := by
  cases o with
  | handle name =>
    have hrelation : Parallel (SessionError.Alike p) (View.rename p)
        (s.relation name >>= fun r => pure r.identityView)
        ((s.rename p).relation name >>= fun r => pure r.identityView) :=
      (relation_rename p s name).map fun r => r.identityView_rename p
    simp only [operand, Operand.rename]
    rw [lookup_rename]
    cases s.handles.lookup name with
    | none => exact hrelation
    | some h =>
      cases h with
      | view v => exact .ok v
      | relation | binary | extension | scan => exact hrelation
  | bound relation slots =>
    exact (relation_rename p s relation).bind fun r => (r.bind_rename p slots).algebra

theorem operands_rename (p : Atom → Atom) (s : Session) (os : List Operand) :
    Parallel (SessionError.Alike p) (List.map (View.rename p)) (s.operands os)
      ((s.rename p).operands (os.map (Operand.rename p))) :=
  .mapM fun o _ => operand_rename p s o

/-! ### Questions -/

/-- A question about other atoms has the answer about these. -/
theorem ask_rename (hp : Function.Injective p) (s : Session) (query : Query) :
    Parallel (SessionError.Alike p) (Answer.rename p) (s.ask query)
      ((s.rename p).ask (query.rename p)) := by
  cases query with
  | test relation t =>
    exact (relation_rename p s relation).map fun r =>
      congrArg Answer.truth (s.store.accepts_rename hp r t)
  | testAll relation ts =>
    refine (relation_rename p s relation).map fun r => congrArg Answer.truths ?_
    rw [List.map_map]
    exact List.map_congr_left fun t _ => s.store.accepts_rename hp r t
  | filter relation candidates =>
    refine (relation_rename p s relation).map fun r => congrArg Answer.tuples ?_
    have haccepts : ((s.rename p).store.read (r.rename p)).accepts ∘ List.map p =
        (s.store.read r).accepts := funext fun t => s.store.accepts_rename hp r t
    rw [List.filter_map, haccepts]
  | summary relation =>
    refine (relation_rename p s relation).map fun r => congrArg (Answer.summary (r.rename p)) ?_
    rw [rename, s.store.rows_rename hp, Extension.size_rename]
  | rows relation =>
    exact (relation_rename p s relation).map fun r =>
      congrArg Answer.rows (s.store.rows_rename hp r)
  | inspect relation =>
    exact (relation_rename p s relation).map fun r => congrArg Answer.text (r.inspect_rename p)
  | valuesAt relation position value =>
    refine (relation_rename p s relation).map fun r => congrArg Answer.tuples ?_
    rw [rename, s.store.rows_rename hp, Extension.valuesAt_rename hp]
  | same first second =>
    refine (relation_rename p s first).bind fun q => ?_
    exact (relation_rename p s second).map fun r => congrArg Answer.truth (q.same_rename p r)
  | isAntisymmetric relation =>
    refine (binary_rename p s relation).map fun b => congrArg Answer.truth ?_
    rw [rename, id_eq, s.store.extension_rename, Extension.isAntisymmetric_rename hp]
  | canAdd relation a b =>
    refine (binary_rename p s relation).bind fun c => ?_
    exact (s.store.canAdd_rename hp c a b).algebra.map fun _ => rfl
  | correspondence operands =>
    exact (operands_rename p s operands).map fun views =>
      congrArg Answer.columns (Relation.correspondence_rename p views)
  | registry registry => exact .of_eq (Answer.ofBases_rename p s.store _).symm
  | ofArity registry arity => exact .ok _
  | ambient registry relation =>
    refine (relation_rename p s relation).map fun r => congrArg Answer.rows ?_
    rw [rename, Relation.arity_rename, Relation.id_rename, s.store.ambient_rename hp]
  | extensionRows extension => exact (extension_rename p s extension).map fun _ => rfl
  | extensionContains extension t =>
    exact (extension_rename p s extension).map fun x =>
      congrArg Answer.truth (x.contains_rename hp t)
  | extensionEqual first second =>
    refine (extension_rename p s first).bind fun x => ?_
    exact (extension_rename p s second).map fun y => congrArg Answer.truth (x.equal_rename hp y)
  | extensionAtoms extension =>
    exact (extension_rename p s extension).map fun x => congrArg Answer.atoms (x.atoms_rename p)
  | extensionValuesAt extension position value =>
    exact (extension_rename p s extension).map fun x =>
      congrArg Answer.tuples (x.valuesAt_rename hp position value)
  | holds rule a b extension =>
    exact (extension_rename p s extension).map fun x =>
      congrArg Answer.truth (rule.holds_rename hp x a b)
  | induces properties a b extension =>
    exact (extension_rename p s extension).map fun x =>
      congrArg Answer.truth (properties.induces_rename hp a b x)
  | checkInsert properties relation a b extension =>
    refine (extension_rename p s extension).bind fun x => ?_
    exact (properties.checkInsert_rename hp relation a b x).algebra.map fun _ => rfl
  | validate properties relation =>
    exact (properties.parallel_validate p relation).algebra.map fun _ => rfl

/-! ### Actions -/

/-- An answer and the session after it, with other atoms. -/
def renameResult (p : Atom → Atom) : Answer × Session → Answer × Session :=
  Prod.map (Answer.rename p) (rename p)

theorem derive_rename (p : Atom → Atom) (s : Session) (combinator : Combinator)
    (views : List View) (registry : String) (name : Option String) :
    Parallel (SessionError.Alike p) (renameResult p) (s.derive combinator views registry name)
      ((s.rename p).derive combinator (views.map (View.rename p)) registry name) := by
  refine (s.store.derive_rename p combinator views registry).algebra.map fun derived => ?_
  exact Prod.ext rfl (keep_rename p { s with store := derived.2 } name (.relation derived.1))

/-- What an action makes is kept under a name; renaming it before or after comes to the same. -/
theorem keep_result_rename (p : Atom → Atom) (s : Session) (name : Option String) (answer : Answer)
    (h : Handle) :
    (answer.rename p, (s.rename p).keep name (h.rename p)) =
      renameResult p (answer, s.keep name h) :=
  Prod.ext rfl (keep_rename p s name h)

/-- An action on other atoms leads to the session with other atoms, or fails in the same way. -/
theorem act_rename (hp : Function.Injective p) (s : Session) (name : Option String)
    (action : Action) :
    Parallel (SessionError.Alike p) (renameResult p) (s.act name action)
      ((s.rename p).act name (action.rename p)) := by
  cases action with
  | declare relation arity registry =>
    refine (Schema.parallel_plain p relation arity).algebra.bind fun schema => ?_
    rw [id_eq, rename, s.store.declare_rename]
    generalize s.store.declare registry schema = made
    exact .of_eq (keep_result_rename p { s with store := made.2 } name
      (.relation (.base made.1)) (.relation (.base made.1))).symm
  | declareBinary relation properties registry =>
    refine (Schema.parallel_binary p relation properties).algebra.bind fun schema => ?_
    rw [id_eq, rename, s.store.declare_rename]
    generalize s.store.declare registry schema = made
    exact .of_eq (keep_result_rename p { s with store := made.2 } name
      (.relation (.base made.1)) (.binary made.1)).symm
  | addAll relation tuples =>
    refine (relation_rename p s relation).bind fun r => ?_
    refine (s.store.addAll_rename hp r tuples).algebra.map fun store => Prod.ext ?_ rfl
    rw [store.rows_rename hp, Extension.size_rename]
    rfl
  | bind relation slots =>
    refine (relation_rename p s relation).bind fun r => ?_
    exact (r.bind_rename p slots).algebra.map fun v =>
      keep_result_rename p s name (.view v) (.view v)
  | view operand =>
    exact (operand_rename p s operand).map fun v =>
      keep_result_rename p s name (.view v) (.view v)
  | call relation slots =>
    refine (relation_rename p s relation).bind fun r => ?_
    refine (s.store.call_rename hp r slots).algebra.bind fun call => ?_
    cases call with
    | answer accepted => exact .ok (Answer.truth accepted, s)
    | view v => exact .of_eq (keep_result_rename p s name (.view v) (.view v)).symm
  | derive combinator operands registry =>
    exact (operands_rename p s operands).bind fun views =>
      derive_rename p s combinator views registry name
  | deriveUnbound combinator relations registry =>
    have hrelations : Parallel (SessionError.Alike p) (List.map (Relation.rename p))
        (relations.mapM s.relation) ((relations.map id).mapM (s.rename p).relation) :=
      .mapM fun name _ => relation_rename p s name
    rw [List.map_id] at hrelations
    refine hrelations.bind fun rs => ?_
    have hviews : (rs.map (Relation.rename p)).map Relation.identityView =
        (rs.map Relation.identityView).map (View.rename p) := by
      rw [List.map_map, List.map_map]
      exact List.map_congr_left fun r _ => r.identityView_rename p
    rw [hviews]
    exact derive_rename p s combinator _ registry name
  | find registry relation =>
    have hfind : (s.rename p).store.find? registry relation = s.store.find? registry relation := rfl
    simp only [act, Action.rename, hfind]
    cases s.store.find? registry relation with
    | some b =>
      exact .of_eq (keep_result_rename p s name (.relation (.base b)) (.relation (.base b))).symm
    | none => exact .ok (Answer.nothing, s)
  | install registry dataset =>
    refine ((s.store.install_rename hp registry dataset).mapError fun _ _ =>
      SessionError.alike_install).map fun installed => ?_
    exact Prod.ext (Answer.ofBases_rename p installed.2 installed.1) rfl
  | extension arity tuples =>
    exact (Extension.ofTuples_rename hp arity tuples).algebra.map fun x =>
      keep_result_rename p s name (.rows x) (.extension x)
  | snapshot relation =>
    refine (relation_rename p s relation).map fun r => ?_
    have hresult := keep_result_rename p s name (.rows (s.store.rows r))
      (.extension (s.store.rows r))
    rw [← hresult, rename, s.store.rows_rename hp]
    rfl
  | scan relation position value =>
    refine (relation_rename p s relation).map fun r => ?_
    have hresult := keep_result_rename p s name .done
      (.scan (Scan.start (s.store.rows r) position value))
    rw [← hresult, rename, s.store.rows_rename hp]
    rfl
  | next scan =>
    refine (scan_rename p s scan).bind fun c => ?_
    rw [c.next_rename hp]
    exact .of_eq (keep_result_rename p s (some scan) (.tuple? c.next.1) (.scan c.next.2)).symm

/-! ### Runs -/

/-- Whether one outcome of a request is another one with other atoms. -/
def Mirrors (p : Atom → Atom) (x y : Except SessionError Answer) : Prop :=
  Parallel (SessionError.Alike p) (Answer.rename p) x y

/-- An action that fails leaves both sessions as they were, and one that succeeds renames what it
made. -/
theorem attempt_rename (hp : Function.Injective p) (s : Session) (name : Option String)
    (action : Action) :
    Mirrors p (s.attempt name action).1 ((s.rename p).attempt name (action.rename p)).1 ∧
      ((s.rename p).attempt name (action.rename p)).2 = (s.attempt name action).2.rename p := by
  have h := act_rename hp s name action
  unfold attempt
  generalize s.act name action = x at h
  generalize (s.rename p).act name (action.rename p) = y at h
  cases h with
  | ok result => exact ⟨.ok result.1, rfl⟩
  | error h => exact ⟨.error h, rfl⟩

/-- One request about other atoms. -/
theorem step_rename (hp : Function.Injective p) (s : Session) (request : Request) :
    Mirrors p (s.step request).1 ((s.rename p).step (request.rename p)).1 ∧
      ((s.rename p).step (request.rename p)).2 = (s.step request).2.rename p := by
  cases request with
  | ask query => exact ⟨ask_rename hp s query, rfl⟩
  | act action name => exact attempt_rename hp s name action
  | load registry text =>
    simp only [step, Request.rename]
    rw [Dataset.parse?_renameText]
    cases Dataset.parse? text with
    | some dataset => exact attempt_rename hp s none (.install registry dataset)
    | none => exact ⟨.error rfl, rfl⟩

/-- Induction on the requests; each step hands a renamed session to the next. -/
theorem run_rename_from (hp : Function.Injective p) (s : Session) (requests : List Request) :
    List.Forall₂ (Mirrors p) (s.run requests).1
        ((s.rename p).run (requests.map (Request.rename p))).1 ∧
      ((s.rename p).run (requests.map (Request.rename p))).2 = (s.run requests).2.rename p := by
  induction requests generalizing s with
  | nil => exact ⟨.nil, rfl⟩
  | cons request requests ih =>
    obtain ⟨houtcome, hsession⟩ := step_rename hp s request
    obtain ⟨houtcomes, hlast⟩ := ih (s.step request).2
    rw [← hsession] at houtcomes hlast
    exact ⟨.cons houtcome houtcomes, hlast⟩

/-- Requests about other atoms succeed just if the original ones do, and fail for the same reasons;
the answers are the original ones with other atoms, rows in the same order. Afterwards every relation
accepts of the other atoms what it accepts of the original ones, and enumerates their rows. -/
theorem run_rename (hp : Function.Injective p) (requests : List Request) :
    List.Forall₂ (Mirrors p) (empty.run requests).1
        (empty.run (requests.map (Request.rename p))).1 ∧
      (empty.run (requests.map (Request.rename p))).2 = (empty.run requests).2.rename p ∧
      ∀ r,
        ((empty.run (requests.map (Request.rename p))).2.store.rows (r.rename p)).rows =
            ((empty.run requests).2.store.rows r).rows.map (List.map p) ∧
          ∀ t, (empty.run (requests.map (Request.rename p))).2.store.accepts (r.rename p)
            (t.map p) = (empty.run requests).2.store.accepts r t := by
  have hempty : empty.rename p = empty := rfl
  obtain ⟨houtcomes, hlast⟩ := run_rename_from hp empty requests
  rw [hempty] at houtcomes hlast
  refine ⟨houtcomes, hlast, fun r => ?_⟩
  rw [hlast]
  have hrows := (empty.run requests).2.store.rows_rename hp r
  exact ⟨congrArg Extension.rows hrows, (empty.run requests).2.store.accepts_rename hp r⟩

/-- Exchanges a text and an integer. -/
def exchange : Atom → Atom := Equiv.swap (.text "teresa") (.int 7)

theorem injective_exchange : Function.Injective exchange := Equiv.injective _

/-- The requests of the example, then a tuple of a wrong length, a call and two questions. -/
def kinshipQuestions : List Request :=
  kinshipRequests ++
    [.act (.addAll "parent" [[.text "teresa"]]) none,
     .act (.call "parent" [.literal (.text "teresa"), .literal (.text "ania")]) none,
     .ask (.test "parent" [.int 7, .text "ania"]),
     .ask (.rows "parent")]

theorem run_rename_exchange :
    exchange (.text "teresa") = .int 7 ∧
      (empty.run kinshipQuestions).1.drop 9 =
        [.error (.algebra (.arityMismatch "parent" 2 1)), .ok (.truth true), .ok (.truth false),
         .ok (.rows ⟨2, [[.text "teresa", .text "piotr"], [.text "piotr", .text "ania"]]⟩)] ∧
      List.Forall₂ (Mirrors exchange) (empty.run kinshipQuestions).1
        (empty.run (kinshipQuestions.map (Request.rename exchange))).1 ∧
      ∃ r, (empty.run kinshipQuestions).2.relation "relative" = .ok r ∧
        ((empty.run (kinshipQuestions.map (Request.rename exchange))).2.store.rows
          (r.rename exchange)).rows = [[.int 7, .text "ania"], [.text "piotr", .int 7]] := by
  obtain ⟨houtcomes, -, hrelations⟩ := run_rename injective_exchange kinshipQuestions
  refine ⟨by decide, rfl, houtcomes, _, rfl, ?_⟩
  rw [(hrelations _).1]
  decide

end Session

end RelationAlgebra
