import RelationAlgebra.Proofs.Except
import RelationAlgebra.Session.Run

/-!
# What a request does

An action that succeeds does one of seven things (`Session.Acts`): it changes nothing, it keeps what
the session has to offer as it is (`Session.Offers`), it moves a scan on, it declares a relation, it
derives one, it adds tuples to one, or it installs a dataset. This is read off the actions once
(`Session.acts_of_act`). A request is such an action or changes nothing, so what holds of the session
as it was, and of what its action comes to, holds after the request (`Session.step_induction`).
-/

namespace RelationAlgebra

/-- The action of a request, if it is one. Loading a text is installing the dataset that it writes. -/
def Request.action? : Request → Option Action
  | .ask _ => none
  | .act action _ => some action
  | .load registry text => (Dataset.parse? text).map (.install registry)

/-- The name under which a request keeps what it makes. -/
def Request.name? : Request → Option String
  | .act _ name => name
  | .ask _ | .load _ _ => none

/-- A request acts either by itself or by loading a text that is a dataset. -/
theorem Request.cases_of_action? {request : Request} {action : Action}
    (h : request.action? = some action) :
    (∃ name, request = .act action name) ∨
      ∃ registry text dataset, request = .load registry text ∧
        action = .install registry dataset := by
  cases request with
  | ask query => cases h
  | act action' name =>
    obtain rfl : action' = action := Option.some.inj h
    exact Or.inl ⟨name, rfl⟩
  | load registry text =>
    obtain ⟨dataset, -, rfl⟩ := Option.map_eq_some_iff.mp h
    exact Or.inr ⟨registry, text, dataset, rfl, rfl⟩

/-- Whether an action adds no tuples to stored relations. -/
def Action.isQuiet : Action → Bool
  | addAll .. | install .. => false
  | _ => true

/-- Whether an action declares a relation with a schema in a registry or in none, and what its name
stands for then. -/
inductive Action.Declares : Action → Option String → Schema → (Base → Handle) → Prop where
  | plain {relation : String} {arity : Nat} {registry : Option String} {schema : Schema}
    (h : Schema.plain relation arity = .ok schema) :
    Declares (.declare relation arity registry) registry schema fun b => .relation (.base b)
  | binary {relation : String} {properties : PropertySet} {registry : Option String}
    {schema : Schema} (h : Schema.binary relation properties = .ok schema) :
    Declares (.declareBinary relation properties registry) registry schema .binary

theorem Action.Declares.isQuiet {action : Action} {registry : Option String} {schema : Schema}
    {handle : Base → Handle} (h : action.Declares registry schema handle) :
    action.isQuiet = true := by
  cases h <;> rfl

namespace Session

variable {s s' : Session} {name : Option String} {answer : Answer} {action : Action}

@[simp]
theorem store_keep (s : Session) (name : Option String) (h : Handle) :
    (s.keep name h).store = s.store := by
  cases name <;> rfl

/-- A name stands for what it stood for, or for what was kept just now. -/
theorem lookup_of_keep {n : String} {h k : Handle}
    (hk : (s.keep name h).handles.lookup n = some k) : s.handles.lookup n = some k ∨ k = h := by
  cases name with
  | none => exact Or.inl hk
  | some m =>
    simp only [Session.keep, Association.lookup_set] at hk
    split at hk
    · exact Or.inr (Option.some.inj hk).symm
    · exact Or.inl hk

theorem lookup_keep {n : String} {h : Handle} (hn : name ≠ some n) :
    (s.keep name h).handles.lookup n = s.handles.lookup n := by
  cases name with
  | none => rfl
  | some m =>
    have hne : n ≠ m := fun heq => hn (congrArg some heq.symm)
    simp [Session.keep, Association.lookup_set, hne]

/-! ## What a session has to offer -/

/-- What a name may be given to without a change of the store: views of relations that have names,
relations that are listed in a registry, and rows. -/
inductive Offers (s : Session) : Handle → Prop where
  | kept {n : String} {v : View} (h : s.handles.lookup n = some (.view v)) : Offers s (.view v)
  | whole {n : String} {r : Relation} (h : s.relation n = .ok r) : Offers s (.view r.identityView)
  | bound {n : String} {r : Relation} {slots : Slots} {v : View} (h : s.relation n = .ok r)
    (hv : r.bind slots = .ok v) : Offers s (.view v)
  | listed {registry : String} {b : Base} (h : b ∈ s.store.registry registry) :
    Offers s (.relation (.base b))
  | extension (x : Extension) : Offers s (.extension x)
  | scan (c : Scan) : Offers s (.scan c)

/-- Every operand that a request finds is offered by the session. -/
theorem offers_of_operand {o : Operand} {v : View} (h : s.operand o = .ok v) :
    s.Offers (.view v) := by
  cases o with
  | handle n =>
    simp only [Session.operand] at h
    split at h
    next w hname =>
      obtain rfl := Except.ok.inj h
      exact .kept hname
    next =>
      obtain ⟨r, hr, h⟩ := bind_eq_ok_iff.mp h
      obtain rfl := Except.ok.inj h
      exact .whole hr
  | bound relation slots =>
    obtain ⟨r, hr, h⟩ := bind_eq_ok_iff.mp h
    exact .bound hr (mapError_eq_ok_iff.mp h)

/-! ## Actions -/

/-- What an action comes to where it succeeds. What it makes is kept under `name`. -/
inductive Acts (s : Session) (name : Option String) : Action → Session → Prop where
  | answers {action : Action} (hquiet : action.isQuiet = true) : Acts s name action s
  | keeps {action : Action} {k : Handle} (hquiet : action.isQuiet = true) (h : s.Offers k) :
    Acts s name action (s.keep name k)
  | moves {n : String} {c : Scan} (h : s.scan n = .ok c) (c' : Scan) :
    Acts s name (.next n) (s.keep (some n) (.scan c'))
  | declares {action : Action} {registry : Option String} {schema : Schema}
    {handle : Base → Handle} (h : action.Declares registry schema handle) :
    Acts s name action ({ s with store := (s.store.declare registry schema).2 }.keep name
      (handle (s.store.declare registry schema).1))
  | derives {action : Action} {combinator : Combinator} {views : List View} {registry : String}
    {r : Relation} {store : Store} (hquiet : action.isQuiet = true)
    (hviews : ∀ v ∈ views, s.Offers (.view v))
    (h : s.store.derive combinator views registry = .ok (r, store)) :
    Acts s name action ({ s with store }.keep name (.relation r))
  | fills {relation : String} {tuples : List Tuple} {b : Base} {store : Store}
    (hb : s.relation relation = .ok (.base b))
    (h : s.store.addAll (.base b) tuples = .ok store) :
    Acts s name (.addAll relation tuples) { s with store }
  | installs {registry : String} {d : Dataset} {bs : List Base} {store : Store}
    (h : s.store.install registry d = .ok (bs, store)) :
    Acts s name (.install registry d) { s with store }

theorem Acts.of_pure {t : Session} {a : Answer} (h : s.Acts name action t)
    (heq : (pure (a, t) : Except SessionError (Answer × Session)) = .ok (answer, s')) :
    s.Acts name action s' :=
  (Prod.mk.inj (Except.ok.inj heq)).2 ▸ h

theorem Acts.of_derive {combinator : Combinator} {views : List View} {registry : String}
    (hquiet : action.isQuiet = true) (hviews : ∀ v ∈ views, s.Offers (.view v))
    (h : s.derive combinator views registry name = .ok (answer, s')) : s.Acts name action s' := by
  obtain ⟨⟨r, store⟩, hr, h⟩ := bind_eq_ok_iff.mp h
  exact .of_pure (.derives hquiet hviews (mapError_eq_ok_iff.mp hr)) h

/-- Whatever an action does if it succeeds is one of the things that it can do. -/
theorem acts_of_act (h : s.act name action = .ok (answer, s')) : s.Acts name action s' := by
  cases action with
  | declare relation arity registry =>
    obtain ⟨schema, hschema, h⟩ := bind_eq_ok_iff.mp h
    exact .of_pure (.declares (.plain (mapError_eq_ok_iff.mp hschema))) h
  | declareBinary relation properties registry =>
    obtain ⟨schema, hschema, h⟩ := bind_eq_ok_iff.mp h
    exact .of_pure (.declares (.binary (mapError_eq_ok_iff.mp hschema))) h
  | addAll relation tuples =>
    obtain ⟨r, hr, h⟩ := bind_eq_ok_iff.mp h
    obtain ⟨store, hstore, h⟩ := bind_eq_ok_iff.mp h
    have hadd := mapError_eq_ok_iff.mp hstore
    cases r with
    | base b => exact .of_pure (.fills hr hadd) h
    | union | intersection | complement | composition | converse => cases hadd
  | bind relation slots =>
    obtain ⟨r, hr, h⟩ := bind_eq_ok_iff.mp h
    obtain ⟨v, hv, h⟩ := bind_eq_ok_iff.mp h
    exact .of_pure (.keeps rfl (.bound hr (mapError_eq_ok_iff.mp hv))) h
  | view operand =>
    obtain ⟨v, hv, h⟩ := bind_eq_ok_iff.mp h
    exact .of_pure (.keeps rfl (offers_of_operand hv)) h
  | call relation slots =>
    obtain ⟨r, hr, h⟩ := bind_eq_ok_iff.mp h
    obtain ⟨call, hcall, h⟩ := bind_eq_ok_iff.mp h
    obtain ⟨v, hv, hcall⟩ := bind_eq_ok_iff.mp (mapError_eq_ok_iff.mp hcall)
    cases call with
    | answer accepted => exact .of_pure (.answers rfl) h
    | view w =>
      have hw : w = v := by
        split at hcall
        · cases hcall
        · exact (Store.Call.view.inj (Except.ok.inj hcall)).symm
      exact .of_pure (.keeps rfl (.bound hr (hw ▸ hv))) h
  | derive combinator operands registry =>
    obtain ⟨views, hviews, h⟩ := bind_eq_ok_iff.mp h
    refine .of_derive rfl (fun v hv => ?_) h
    obtain ⟨o, -, ho⟩ := exists_of_mapM_eq_ok hviews v hv
    exact offers_of_operand ho
  | deriveUnbound combinator relations registry =>
    obtain ⟨rs, hrs, h⟩ := bind_eq_ok_iff.mp h
    refine .of_derive rfl (fun v hv => ?_) h
    obtain ⟨r, hr, rfl⟩ := List.mem_map.mp hv
    obtain ⟨n, -, hn⟩ := exists_of_mapM_eq_ok hrs r hr
    exact .whole hn
  | find registry relation =>
    simp only [Session.act] at h
    split at h
    next b hb => exact .of_pure (.keeps rfl (.listed (List.mem_of_find?_eq_some hb))) h
    next => exact .of_pure (.answers rfl) h
  | install registry dataset =>
    obtain ⟨⟨bs, store⟩, hstore, h⟩ := bind_eq_ok_iff.mp h
    exact .of_pure (.installs (mapError_eq_ok_iff.mp hstore)) h
  | extension arity tuples =>
    obtain ⟨x, -, h⟩ := bind_eq_ok_iff.mp h
    exact .of_pure (.keeps rfl (.extension x)) h
  | snapshot relation =>
    obtain ⟨r, -, h⟩ := bind_eq_ok_iff.mp h
    exact .of_pure (.keeps rfl (.extension _)) h
  | scan relation position value =>
    obtain ⟨r, -, h⟩ := bind_eq_ok_iff.mp h
    exact .of_pure (.keeps rfl (.scan _)) h
  | next scan =>
    obtain ⟨c, hc, h⟩ := bind_eq_ok_iff.mp h
    exact .of_pure (.moves hc _) h

/-! ## Requests -/

/-- An attempt either fails and leaves the session as it is, or succeeds as the action does. -/
theorem attempt_eq (s : Session) (name : Option String) (action : Action) :
    (∃ e, s.attempt name action = (.error e, s)) ∨
    ∃ answer s', s.attempt name action = (.ok answer, s') ∧
      s.act name action = .ok (answer, s') := by
  unfold Session.attempt
  cases s.act name action with
  | error e => exact Or.inl ⟨e, rfl⟩
  | ok result => exact Or.inr ⟨result.1, result.2, rfl, rfl⟩

/-- What a request does: it fails, it asks, or it is an action that succeeds. -/
theorem step_cases (s : Session) (request : Request) :
    (∃ e, s.step request = (.error e, s)) ∨
    (∃ answer, request.action? = none ∧ s.step request = (.ok answer, s)) ∨
    ∃ answer s' action, request.action? = some action ∧ s.step request = (.ok answer, s') ∧
      s.Acts request.name? action s' := by
  have hattempt : ∀ name action,
      (∃ e, s.attempt name action = (.error e, s)) ∨
      ∃ answer s', s.attempt name action = (.ok answer, s') ∧ s.Acts name action s' := by
    intro name action
    rcases attempt_eq s name action with h | ⟨answer, s', h, hact⟩
    · exact Or.inl h
    · exact Or.inr ⟨answer, s', h, acts_of_act hact⟩
  cases request with
  | ask query =>
    rw [step]
    cases s.ask query with
    | error e => exact Or.inl ⟨e, rfl⟩
    | ok answer => exact Or.inr (Or.inl ⟨answer, rfl, rfl⟩)
  | act action name =>
    rcases hattempt name action with h | ⟨answer, s', h⟩
    · exact Or.inl h
    · exact Or.inr (Or.inr ⟨answer, s', action, rfl, h⟩)
  | load registry text =>
    rw [step, Request.action?]
    cases Dataset.parse? text with
    | none => exact Or.inl ⟨_, rfl⟩
    | some d =>
      rcases hattempt none (.install registry d) with h | ⟨answer, s', h⟩
      · exact Or.inl h
      · exact Or.inr (Or.inr ⟨answer, s', _, rfl, h⟩)

/-- What holds of the session as it was, and of what the action of a request comes to, holds after
the request. -/
theorem step_induction {motive : Session → Prop} {request : Request} (same : motive s)
    (acts : ∀ action s', request.action? = some action → s.Acts request.name? action s' →
      motive s') : motive (s.step request).2 := by
  rcases step_cases s request with ⟨e, h⟩ | ⟨answer, -, h⟩ | ⟨answer, s', action, haction, h, hacts⟩
  · rw [h]
    exact same
  · rw [h]
    exact same
  · rw [h]
    exact acts action s' haction hacts

end Session

end RelationAlgebra
