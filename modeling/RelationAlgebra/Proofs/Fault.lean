import RelationAlgebra.Proofs.Derivation
import RelationAlgebra.Proofs.Emission
import RelationAlgebra.Proofs.Equality
import RelationAlgebra.Proofs.History

/-!
# Sessions without faults

A session is run here with everything that might be a fault on the way: slots that are read, tuples
that are pushed, rows that are emitted, and the operand that a complement takes (`Session.run?`).
Whatever is requested, and in whatever order, there never is one, and the answers are those of
`Session.run` (`Session.faultless`). Tuples of any length may be added and asked for.

The rows of relations have their arity. An extension that has a name was made by insertion or is a
snapshot of a relation, so its rows have its arity too (`Session.Reached.homogeneous`).
-/

namespace RelationAlgebra

open Hazardous

/-! ## Changes of a store -/

/-- As `Relation.derive`. The operand of a complement is looked up among the operands. -/
def Relation.derive? (id : Nat) (combinator : Combinator) (operands : List View)
    (registry : String) : Hazardous RelationError Relation :=
  match combinator with
  | .complement => do
    if operands.length ≠ 1 then
      throw (.unsupportedCombinator .complement (.count 1 operands.length))
    let operand ← (operands[0]? : Option View)
    return complement id operand registry
  | combinator => derive id combinator operands registry

namespace Declaration

/-- As `load`. -/
def load? (d : Declaration) (schema : Schema) (x : Extension) :
    Hazardous InstallError Extension :=
  (schema.insertAll? x (d.entries.map Entry.tuple)).adapt (.loading d.name)

/-- As `stage`. -/
def stage? (staging : Staging) (d : Declaration) : Hazardous InstallError Staging :=
  match staging.find? fun entry => entry.1.name == d.name with
  | some (staged, x) => do
    let schema ← d.merge staged
    let x ← d.load? schema x
    return staging.map fun entry => if entry.1.name == d.name then (schema, x) else entry
  | none => do
    let schema ← d.schema
    let x ← d.load? schema (.empty schema.arity)
    return staging ++ [(schema, x)]

end Declaration

namespace Store

/-- As `addAll`. -/
def addAll? (s : Store) (r : Relation) (tuples : List Tuple) : Hazardous RelationError Store :=
  match r with
  | .base b => do
    let x ← b.insertAll? (s.extension b) tuples
    return { s with extensions := Association.set b.id x s.extensions }
  | derived => throw (.readOnly derived.name)

/-- As `derive`. -/
def derive? (s : Store) (combinator : Combinator) (operands : List View) (registry : String) :
    Hazardous RelationError (Relation × Store) := do
  let r ← Relation.derive? s.next combinator operands registry
  return (r, { s with next := s.next + 1 })

/-- As `install`. -/
def install? (s : Store) (registry : String) (d : Dataset) :
    Hazardous InstallError (List Base × Store) := do
  let staging ← d.relations.foldlM Declaration.stage? []
  return s.commit registry staging

/-- As `call`. -/
def call? (s : Store) (r : Relation) (slots : Slots) : Hazardous RelationError Call := do
  let v ← r.bind slots
  match v.slots.literals? with
  | some t => return .answer (← (s.probe r).accepts t)
  | none => return .view v

end Store

/-- The single operand of a complement is there, since the number of operands was checked before. -/
theorem Relation.derive?_yields (id : Nat) (combinator : Combinator) (operands : List View)
    (registry : String) :
    (Relation.derive? id combinator operands registry).Yields
      (Relation.derive id combinator operands registry) := by
  cases combinator with
  | complement =>
    match operands with
    | [] | [_] | _ :: _ :: _ => rfl
  | union | intersection | composition | converse => exact yields_lift _

/-- Staging a declaration pushes tuples of the declared length only. -/
theorem Declaration.stage?_yields (staging : Staging) (d : Declaration) :
    (Declaration.stage? staging d).Yields (Declaration.stage staging d) := by
  have hload : ∀ schema x, (d.load? schema x).Yields (d.load schema x) := fun schema x =>
    (schema.insertAll?_yields x _).adapt _
  unfold Declaration.stage? Declaration.stage
  cases staging.find? fun entry => entry.1.name == d.name with
  | some entry => exact (yields_lift _).bind fun schema _ => (hload schema _).bind fun _ _ => rfl
  | none => exact (yields_lift _).bind fun schema _ => (hload schema _).bind fun _ _ => rfl

namespace Store

variable {s : Store}

/-- Admitting tuples checks their length before it pushes them. -/
theorem addAll?_yields (s : Store) (r : Relation) (tuples : List Tuple) :
    (s.addAll? r tuples).Yields (s.addAll r tuples) := by
  cases r with
  | base b => exact (b.insertAll?_yields _ tuples).bind fun _ _ => rfl
  | union | intersection | complement | composition | converse => rfl

theorem derive?_yields (s : Store) (combinator : Combinator) (operands : List View)
    (registry : String) :
    (s.derive? combinator operands registry).Yields (s.derive combinator operands registry) :=
  (Relation.derive?_yields _ combinator operands registry).bind fun _ _ => rfl

/-- Installing reads no slots beside those that staging reads. -/
theorem install?_yields (s : Store) (registry : String) (d : Dataset) :
    (s.install? registry d).Yields (s.install registry d) :=
  (Yields.foldlM Declaration.stage?_yields d.relations []).bind fun _ _ => rfl

theorem call?_yields {r : Relation} (hr : s.probe r = .total (s.read r)) (slots : Slots) :
    (s.call? r slots).Yields (s.call r slots) := by
  refine (yields_lift _).bind fun v _ => ?_
  rw [hr]
  cases v.slots.literals? <;> rfl

end Store

/-! ## Requests -/

namespace Session

/-- As `derive`. -/
def derive? (s : Session) (combinator : Combinator) (views : List View) (registry : String)
    (name : Option String) : Hazardous SessionError (Answer × Session) := do
  let (r, store) ← (s.store.derive? combinator views registry).adapt .algebra
  return (.relation r, { s with store }.keep name (.relation r))

/-- As `ask`. Where no slot is read and no row is emitted there is nothing to go wrong. -/
def ask? (s : Session) : Query → Hazardous SessionError Answer
  | .test relation t => do
    let r ← s.relation relation
    return .truth (← (s.store.probe r).accepts t)
  | .testAll relation ts => do
    let r ← s.relation relation
    return .truths (← (ts.mapM (s.store.probe r).accepts : Option (List Bool)))
  | .filter relation candidates => do
    let r ← s.relation relation
    return .tuples (← (candidates.filterM (s.store.probe r).accepts : Option (List Tuple)))
  | .summary relation => do
    let r ← s.relation relation
    return .summary r (← (s.store.probe r).rows).size
  | .rows relation => do
    let r ← s.relation relation
    return .rows (← (s.store.probe r).rows)
  | .valuesAt relation position value => do
    let r ← s.relation relation
    return .tuples ((← (s.store.probe r).rows).valuesAt position value)
  | .isAntisymmetric relation => do
    let b ← s.binary relation
    return .truth (← (s.store.extension b).isAntisymmetric?)
  | .ambient registry relation => do
    let r ← s.relation relation
    return .rows (← s.store.ambient? registry r)
  | .holds rule a b extension => do
    let x ← s.extension extension
    return .truth (← rule.holds? x a b)
  | .induces properties a b extension => do
    let x ← s.extension extension
    return .truth (← properties.induces? a b x)
  | query => s.ask query

/-- As `act`. -/
def act? (s : Session) (name : Option String) :
    Action → Hazardous SessionError (Answer × Session)
  | .addAll relation tuples => do
    let r ← s.relation relation
    let store ← (s.store.addAll? r tuples).adapt .algebra
    return (.count (← (store.probe r).rows).size, { s with store })
  | .call relation slots => do
    let r ← s.relation relation
    match ← (s.store.call? r slots).adapt .algebra with
    | .answer accepted => return (.truth accepted, s)
    | .view v => return (.view v, s.keep name (.view v))
  | .derive combinator operands registry => do
    s.derive? combinator (← s.operands operands) registry name
  | .deriveUnbound combinator relations registry => do
    let rs ← (relations.mapM s.relation : Except SessionError (List Relation))
    s.derive? combinator (rs.map Relation.identityView) registry name
  | .install registry dataset => do
    let (bs, store) ← (s.store.install? registry dataset).adapt .install
    return (.ofBases store bs, { s with store })
  | .snapshot relation => do
    let r ← s.relation relation
    let x ← (s.store.probe r).rows
    return (.rows x, s.keep name (.extension x))
  | .scan relation position value => do
    let r ← s.relation relation
    let c := Scan.start (← (s.store.probe r).rows) position value
    return (.done, s.keep name (.scan c))
  | action => s.act name action

/-- As `attempt`. -/
def attempt? (s : Session) (name : Option String) (action : Action) :
    Option (Except SessionError Answer × Session) := do
  match ← (s.act? name action).run with
  | .ok (answer, s) => return (.ok answer, s)
  | .error e => return (.error e, s)

/-- As `step`. -/
def step? (s : Session) : Request → Option (Except SessionError Answer × Session)
  | .ask query => do return (← (s.ask? query).run, s)
  | .act action name => s.attempt? name action
  | .load registry text =>
    match Dataset.parse? text with
    | some dataset => s.attempt? none (.install registry dataset)
    | none => return (.error .malformedDataset, s)

/-- As `run`. -/
def run? (s : Session) : List Request → Option (List (Except SessionError Answer) × Session)
  | [] => some ([], s)
  | request :: requests => do
    let (answer, s) ← s.step? request
    let (answers, s) ← s.run? requests
    return (answer :: answers, s)

/-! ## Extensions that have a name -/

variable {s s' : Session} {name : Option String} {answer : Answer} {action : Action}

/-- Whether the rows of every extension that has a name have its arity. -/
def Homogeneous (s : Session) : Prop :=
  ∀ n x, s.handles.lookup n = some (.extension x) → x.Valid

theorem Homogeneous.keep (h : s.Homogeneous) (name : Option String) {k : Handle}
    (hk : ∀ x, k = .extension x → x.Valid) : (s.keep name k).Homogeneous := by
  intro n x hx
  rcases lookup_of_keep hx with hx | hx
  · exact h n x hx
  · exact hk x hx.symm

theorem Homogeneous.derive (h : s.Homogeneous) (combinator : Combinator) (views : List View)
    (registry : String) :
    Ensures (fun result => result.2.Homogeneous) (s.derive combinator views registry name) :=
  ensures_bind fun (r, store) _ =>
    ensures_pure (Homogeneous.keep (s := { s with store }) h name (by simp))

/-- An action keeps extensions whose rows all have the declared length: snapshots are such, and so
is what is made of a list of tuples. -/
theorem Homogeneous.act (h : s.Homogeneous) (hs : s.Valid) (name : Option String)
    (action : Action) : Ensures (fun result => result.2.Homogeneous) (s.act name action) := by
  -- the store does not matter to what names stand for
  have hkeep : ∀ (store : Store) {k : Handle}, (∀ x, k = .extension x → x.Valid) →
      ({ s with store }.keep name k).Homogeneous := fun store _ hk =>
    Homogeneous.keep (s := { s with store }) h name hk
  cases action with
  | declare => exact ensures_bind fun schema _ => ensures_pure (hkeep _ (by simp))
  | declareBinary => exact ensures_bind fun schema _ => ensures_pure (hkeep _ (by simp))
  | addAll => exact ensures_bind fun r _ => ensures_bind fun store _ => ensures_pure h
  | bind =>
    exact ensures_bind fun r _ => ensures_bind fun v _ => ensures_pure (h.keep name (by simp))
  | view => exact ensures_bind fun v _ => ensures_pure (h.keep name (by simp))
  | call =>
    refine ensures_bind fun r _ => ensures_bind fun call _ => ?_
    cases call with
    | answer => exact ensures_pure h
    | view v => exact ensures_pure (h.keep name (by simp))
  | derive => exact ensures_bind fun views _ => h.derive _ _ _
  | deriveUnbound => exact ensures_bind fun rs _ => h.derive _ _ _
  | find registry relation =>
    rw [Session.act]
    cases s.store.find? registry relation with
    | some b => exact ensures_pure (h.keep name (by simp))
    | none => exact ensures_pure h
  | install => exact ensures_bind fun _ _ => ensures_pure h
  | extension =>
    refine ensures_bind fun x hx => ensures_pure (h.keep name fun y hy => ?_)
    obtain rfl := Handle.extension.inj hy
    exact (Extension.Obtained.ofTuples (mapError_eq_ok_iff.mp hx)).valid
  | snapshot =>
    refine ensures_bind fun r hr => ensures_pure (h.keep name fun y hy => ?_)
    obtain rfl := Handle.extension.inj hy
    exact (Store.ofArity_rows hs.store (hs.built hr)).valid
  | scan => exact ensures_bind fun r _ => ensures_pure (h.keep name (by simp))
  | next => exact ensures_bind fun c _ => ensures_pure (h.keep _ (by simp))

theorem Homogeneous.step (h : s.Homogeneous) (hs : s.Valid) (request : Request) :
    (s.step request).2.Homogeneous := by
  have hattempt : ∀ name action, (s.attempt name action).2.Homogeneous := by
    intro name action
    rcases attempt_eq s name action with ⟨e, heq⟩ | ⟨answer, s', heq, hact⟩
    · rw [heq]
      exact h
    · rw [heq]
      exact h.act hs name action (answer, s') hact
  cases request with
  | ask query => exact h
  | act action name => exact hattempt name action
  | load registry text =>
    rw [Session.step]
    cases Dataset.parse? text with
    | some dataset => exact hattempt none _
    | none => exact h

/-- By induction on the requests that led to the session. -/
theorem Reached.homogeneous (h : s.Reached) : s.Homogeneous := by
  induction h with
  | empty => exact fun n x hx => by cases hx
  | step hs request ih => exact ih.step hs.valid request
  | @perform s hs request ih =>
    rcases perform_cases s request with ⟨answer, -, heq⟩ | ⟨e, staging, -, -, heq⟩
    · rw [heq]
      exact ih.step hs.valid request
    · rw [heq]
      exact ih

theorem Reached.valid_extension (hs : s.Reached) {n : String} {x : Extension}
    (h : s.extension n = .ok x) : x.Valid :=
  hs.homogeneous n x (extension_eq_ok_iff.mp h)

/-! ## Requests without a fault -/

/-- What has a name answers as its reading does. -/
theorem Reached.probe_eq (hs : s.Reached) {n : String} {r : Relation} (h : s.relation n = .ok r) :
    s.store.probe r = .total (s.store.read r) :=
  Store.probe_eq_total hs.valid.store (hs.valid.built h)

/-- No query reads a slot out of range in a session that was reached. -/
theorem ask?_yields (hs : s.Reached) (query : Query) : (s.ask? query).Yields (s.ask query) := by
  cases query with
  | test relation t =>
    refine (yields_lift _).bind fun r hr => ?_
    rw [hs.probe_eq hr]
    rfl
  | testAll relation ts =>
    refine (yields_lift _).bind fun r hr => ?_
    rw [hs.probe_eq hr]
    exact yields_access (mapM_eq_some_map fun _ _ => rfl) rfl
  | filter relation candidates =>
    refine (yields_lift _).bind fun r hr => ?_
    rw [hs.probe_eq hr]
    exact yields_access (filterM_some _ candidates) rfl
  | summary | rows | valuesAt =>
    refine (yields_lift _).bind fun r hr => ?_
    rw [hs.probe_eq hr]
    rfl
  | isAntisymmetric relation =>
    refine (yields_lift _).bind fun b _ => ?_
    exact yields_access (Extension.isAntisymmetric?_eq (hs.valid.store.valid_extension b)) rfl
  | ambient registry relation =>
    exact (yields_lift _).bind fun r _ => yields_access (hs.valid.store.ambient?_eq registry r) rfl
  | holds rule a b extension =>
    exact (yields_lift _).bind fun x hx =>
      yields_access (rule.holds?_eq (hs.valid_extension hx) a b) rfl
  | induces properties a b extension =>
    exact (yields_lift _).bind fun x hx =>
      yields_access (properties.induces?_eq (hs.valid_extension hx) a b) rfl
  | _ => exact yields_lift _

theorem derive?_yields (s : Session) (combinator : Combinator) (views : List View)
    (registry : String) (name : Option String) :
    (s.derive? combinator views registry name).Yields (s.derive combinator views registry name) :=
  ((s.store.derive?_yields combinator views registry).adapt _).bind fun (_, _) _ => rfl

theorem act?_yields (hs : s.Reached) (name : Option String) (action : Action) :
    (s.act? name action).Yields (s.act name action) := by
  cases action with
  | addAll relation tuples =>
    refine (yields_lift _).bind fun r hr => ?_
    refine ((s.store.addAll?_yields r tuples).adapt _).bind fun store hstore => ?_
    have hbuilt := hs.valid.built hr
    have hholds : ∀ b, r = .base b → s.store.Holds b := fun b hb => (hb ▸ hbuilt).holds
    obtain ⟨hvalid, hgrows⟩ := hs.valid.store.addAll hholds (mapError_eq_ok_iff.mp hstore)
    have hfilled : store.probe r = .total (store.read r) :=
      Store.probe_eq_total hvalid (hbuilt.mono hgrows)
    rw [hfilled]
    rfl
  | call relation slots =>
    refine (yields_lift _).bind fun r hr => ?_
    refine ((Store.call?_yields (hs.probe_eq hr) slots).adapt _).bind fun call _ => ?_
    cases call <;> rfl
  | derive combinator operands registry =>
    exact (yields_lift _).bind fun views _ => s.derive?_yields combinator views registry name
  | deriveUnbound combinator relations registry =>
    exact (yields_lift _).bind fun rs _ => s.derive?_yields combinator _ registry name
  | install registry dataset =>
    exact ((s.store.install?_yields registry dataset).adapt _).bind fun (_, _) _ => rfl
  | snapshot relation =>
    refine (yields_lift _).bind fun r hr => ?_
    rw [hs.probe_eq hr]
    rfl
  | scan relation position value =>
    refine (yields_lift _).bind fun r hr => ?_
    rw [hs.probe_eq hr]
    rfl
  | _ => exact yields_lift _

/-- What is attempted comes out as it does without watching the reads. -/
theorem attempt?_eq (hs : s.Reached) (name : Option String) (action : Action) :
    s.attempt? name action = some (s.attempt name action) := by
  rw [attempt?, act?_yields hs, attempt]
  cases s.act name action <;> rfl

/-- A request is answered as it is without watching the reads. -/
theorem step?_eq (hs : s.Reached) (request : Request) :
    s.step? request = some (s.step request) := by
  cases request with
  | ask query =>
    rw [step?, ask?_yields hs]
    rfl
  | act action name => exact attempt?_eq hs name action
  | load registry text =>
    rw [step?, step]
    cases Dataset.parse? text with
    | some dataset => exact attempt?_eq hs none _
    | none => rfl

/-- By induction on the requests, each of which leads to a session that was reached. -/
theorem run?_eq (hs : s.Reached) (requests : List Request) :
    s.run? requests = some (s.run requests) := by
  induction requests generalizing s with
  | nil => rfl
  | cons request requests ih =>
    have hrest := ih (hs.step request)
    rw [run?, step?_eq hs, Option.bind_eq_bind, Option.bind_some]
    change (s.step request).2.run? requests >>= _ = _
    rw [hrest]
    rfl

/-- Whatever is requested of a session that was reached, no slot is read that is not there, no tuple
of another length than the rows is pushed, and no row is emitted that lacks a value. No relation
over the store of the session runs into a fault, whether it has a name or not. -/
theorem faultless (hs : s.Reached) :
    (∀ requests, s.run? requests = some (s.run requests)) ∧
      ∀ r, s.store.Built r → s.store.probe r = .total (s.store.read r) :=
  ⟨run?_eq hs, fun _ hr => Store.probe_eq_total hs.valid.store hr⟩

/-- Tuples of all lengths, for a binary relation and for a union that is built on a complement. -/
def kinshipMisfits : List Request :=
  [.act (.addAll "parent" [[]]) none,
   .act (.addAll "parent" [[.text "ania", .text "ewa"], [.text "ewa"]]) none,
   .ask (.testAll "relative"
     [[], [.text "ania"], [.text "teresa", .text "ania"],
      [.text "teresa", .text "ania", .text "ewa"]])]

theorem faultless_kinship :
    kinship.Reached ∧ kinship.run? kinshipMisfits = some (kinship.run kinshipMisfits) ∧
      (kinship.run kinshipMisfits).1[0]? =
        some (.error (.algebra (.arityMismatch "parent" 2 0))) ∧
      (kinship.run kinshipMisfits).1[2]? = some (.ok (.truths [false, false, true, false])) := by
  have hreached : kinship.Reached := reached_run .empty kinshipRequests
  exact ⟨hreached, (faultless hreached).1 kinshipMisfits, rfl, rfl⟩

end Session

end RelationAlgebra
