import RelationAlgebra.Proofs.InPlace

/-!
# Failures leave everything as it was

A request that changes the store may be performed in place, one write after another
(`Session.perform`). Where it succeeds, the session after it is the one that `Session.step` gives.
Where it fails, the store may hold rows that were not there before, but no name, registry or
relation leads to them: every question has the answer that it had (`Session.unchanged_of_error`).
-/

namespace RelationAlgebra.Session

variable {ε α : Type} {s s' : Session} {name : Option String} {answer : Answer} {e : SessionError}

/-- The answer to a request whose computation writes to the store as it goes, and the session after
it. -/
def write (s : Session) (wrap : ε → SessionError) (x : InPlace ε α)
    (finish : α → Session → Answer × Session) : Except SessionError Answer × Session :=
  match x.perform s.store with
  | (.ok a, store) => (.ok (finish a { s with store }).1, (finish a { s with store }).2)
  | (.error e, store) => (.error (wrap e), { s with store })

/-- Goes on with what names stand for, if they stand for something that the request can use. -/
def resolve (s : Session) (found : Except SessionError α)
    (next : α → Except SessionError Answer × Session) : Except SessionError Answer × Session :=
  match found with
  | .ok a => next a
  | .error e => (.error e, s)

/-- As `act`, with every write to the store made as the action goes. The actions that are not listed
write to no store. -/
def actInPlace (s : Session) (name : Option String) :
    Action → Except SessionError Answer × Session
  | .declare relation arity registry =>
    s.write .algebra (do InPlace.declare registry (← Schema.plain relation arity)) fun b s =>
      (.relation (.base b), s.keep name (.relation (.base b)))
  | .declareBinary relation properties registry =>
    s.write .algebra (do InPlace.declare registry (← Schema.binary relation properties)) fun b s =>
      (.relation (.base b), s.keep name (.binary b))
  | .addAll relation tuples =>
    s.resolve (s.relation relation) fun r =>
      s.write .algebra (InPlace.addAll r tuples) fun _ s => (.count (s.store.rows r).size, s)
  | .derive combinator operands registry =>
    s.resolve (s.operands operands) fun views =>
      s.write .algebra (InPlace.derive combinator views registry) fun r s =>
        (.relation r, s.keep name (.relation r))
  | .deriveUnbound combinator relations registry =>
    s.resolve (relations.mapM s.relation) fun rs =>
      s.write .algebra (InPlace.derive combinator (rs.map Relation.identityView) registry)
        fun r s => (.relation r, s.keep name (.relation r))
  | .install registry dataset =>
    s.write .install (InPlace.install registry dataset) fun bs s => (.ofBases s.store bs, s)
  | action => s.attempt name action

/-- As `step`, with every write to the store made as the request goes. -/
def perform (s : Session) : Request → Except SessionError Answer × Session
  | .ask query => (s.ask query, s)
  | .act action name => s.actInPlace name action
  | .load registry text =>
    match Dataset.parse? text with
    | some dataset => s.actInPlace none (.install registry dataset)
    | none => (.error .malformedDataset, s)

/-! ## One request -/

/-- Whether what comes of an action in a session is what is wanted. A failure leaves the session
with staged rows behind. -/
inductive Realizes (s : Session) :
    Except SessionError (Answer × Session) → Except SessionError Answer × Session → Prop where
  | ok (answer : Answer) (s' : Session) : Realizes s (.ok (answer, s')) (.ok answer, s')
  | error (e : SessionError) (staging : Staging) (h : staging.Valid) :
    Realizes s (.error e) (.error e, { s with store := (s.store.stage staging).2 })

/-- A failure that comes before anything is written realizes a failure. -/
theorem Realizes.unwritten (s : Session) (e : SessionError) : Realizes s (.error e) (.error e, s) :=
  .error e [] Staging.valid_nil

/-- Writing in place realizes the pure step if the store is written as that step writes it. -/
theorem realizes_write {wanted : Except ε (α × Store)} {x : InPlace ε α}
    (h : InPlace.Realizes s.store wanted (x.perform s.store)) (wrap : ε → SessionError)
    (finish : α → Session → Answer × Session) :
    Realizes s (do
        let (a, store) ← wanted.mapError wrap
        return finish a { s with store })
      (s.write wrap x finish) := by
  cases wanted with
  | error e =>
    obtain ⟨left, hleft, hgot⟩ := h.exists_of_error
    rw [write, hgot]
    exact .error (wrap e) left hleft
  | ok result =>
    rw [write, InPlace.Realizes.eq_of_ok h]
    exact .ok _ _

/-- Looking handles up before the first write is the same on both sides. -/
theorem realizes_resolve {found : Except SessionError α}
    {wanted : α → Except SessionError (Answer × Session)}
    {next : α → Except SessionError Answer × Session} (h : ∀ a, Realizes s (wanted a) (next a)) :
    Realizes s (found >>= wanted) (s.resolve found next) := by
  cases found with
  | error e => exact .unwritten s e
  | ok a => exact h a

theorem realizes_declaring (schema : Except RelationError Schema) (registry : Option String)
    (handle : Base → Handle) :
    Realizes s (do
        let schema ← schema.mapError .algebra
        let (b, store) := s.store.declare registry schema
        return (.relation (.base b), { s with store }.keep name (handle b)))
      (s.write .algebra (do InPlace.declare registry (← schema)) fun b s =>
        (.relation (.base b), s.keep name (handle b))) := by
  have h := realizes_write (InPlace.realizes_declare registry schema s.store) SessionError.algebra
    fun b s => (.relation (.base b), s.keep name (handle b))
  cases schema <;> exact h

theorem realizes_deriving (combinator : Combinator) (views : List View) (registry : String) :
    Realizes s (s.derive combinator views registry name)
      (s.write .algebra (InPlace.derive combinator views registry) fun r s =>
        (.relation r, s.keep name (.relation r))) :=
  realizes_write (InPlace.realizes_derive combinator views registry s.store) SessionError.algebra
    fun r s => (.relation r, s.keep name (.relation r))

theorem realizes_attempt (s : Session) (name : Option String) (action : Action) :
    Realizes s (s.act name action) (s.attempt name action) := by
  unfold attempt
  cases s.act name action with
  | error e => exact .unwritten s e
  | ok result => exact .ok result.1 result.2

/-- In place, an action comes to what it comes to otherwise. -/
theorem realizes_act (s : Session) (name : Option String) (action : Action) :
    Realizes s (s.act name action) (s.actInPlace name action) := by
  cases action with
  | declare relation arity registry => exact realizes_declaring _ _ fun b => .relation (.base b)
  | declareBinary relation properties registry => exact realizes_declaring _ _ .binary
  | addAll relation tuples =>
    refine realizes_resolve fun r => ?_
    have h := realizes_write (InPlace.realizes_addAll r tuples s.store) SessionError.algebra
      fun _ s => (.count (s.store.rows r).size, s)
    cases hadd : s.store.addAll r tuples <;> rw [hadd] at h <;> exact h
  | derive combinator operands registry =>
    exact realizes_resolve fun views => realizes_deriving combinator views registry
  | deriveUnbound combinator relations registry =>
    exact realizes_resolve fun rs => realizes_deriving combinator _ registry
  | install registry dataset =>
    exact realizes_write (InPlace.realizes_install registry dataset s.store) SessionError.install
      fun bs s => (.ofBases s.store bs, s)
  | bind | view | call | find | extension | snapshot | scan | next =>
    exact realizes_attempt s name _

theorem attempt_cases (s : Session) (name : Option String) (action : Action) :
    (∃ answer, (s.attempt name action).1 = .ok answer ∧
      s.actInPlace name action = s.attempt name action) ∨
    (∃ e staging, Staging.Valid staging ∧ s.attempt name action = (.error e, s) ∧
      s.actInPlace name action = (.error e, { s with store := (s.store.stage staging).2 })) := by
  have h := realizes_act s name action
  unfold attempt
  generalize s.actInPlace name action = got at h
  generalize s.act name action = wanted at h
  cases h with
  | ok answer s' => exact Or.inl ⟨answer, rfl, rfl⟩
  | error e staging hstaging => exact Or.inr ⟨e, staging, hstaging, rfl, rfl⟩

/-- In place, a request that succeeds does what it does otherwise, and one that fails leaves staged
rows behind. -/
theorem perform_cases (s : Session) (request : Request) :
    (∃ answer, (s.step request).1 = .ok answer ∧ s.perform request = s.step request) ∨
    (∃ e staging, Staging.Valid staging ∧ s.step request = (.error e, s) ∧
      s.perform request = (.error e, { s with store := (s.store.stage staging).2 })) := by
  cases request with
  | ask query =>
    cases h : s.ask query with
    | ok answer => exact Or.inl ⟨answer, h, rfl⟩
    | error e => exact Or.inr ⟨e, [], Staging.valid_nil, Prod.ext h rfl, Prod.ext h rfl⟩
  | act action name => exact attempt_cases s name action
  | load registry text =>
    simp only [step, perform]
    cases Dataset.parse? text with
    | some dataset => exact attempt_cases s none (.install registry dataset)
    | none => exact Or.inr ⟨_, [], Staging.valid_nil, rfl, rfl⟩

/-! ## Reached sessions -/

/-- Whether requests lead from the empty session to a session, however each of them is performed. -/
inductive Reached : Session → Prop where
  | empty : Reached empty
  | step {s : Session} (h : Reached s) (request : Request) : Reached (s.step request).2
  | perform {s : Session} (h : Reached s) (request : Request) : Reached (s.perform request).2

theorem reached_run (h : s.Reached) (requests : List Request) : (s.run requests).2.Reached := by
  induction requests generalizing s with
  | nil => exact h
  | cons request requests ih => exact ih (h.step request)

/-- What every action that succeeds keeps, and no staged rows undo, holds of all sessions that are
reached. -/
@[elab_as_elim]
theorem Reached.induction {motive : Session → Prop} (start : motive Session.empty)
    (acts : ∀ s name action s', s.Reached → s.Acts name action s' → motive s → motive s')
    (fails : ∀ s staging, s.Reached → Staging.Valid staging → motive s →
      motive { s with store := (s.store.stage staging).2 })
    (h : s.Reached) : motive s := by
  have hstep : ∀ s request, s.Reached → motive s → motive (s.step request).2 := by
    intro s request hs h
    exact step_induction h fun action s' _ hacts => acts s _ action s' hs hacts h
  induction h with
  | empty => exact start
  | @step s hs request ih => exact hstep s request hs ih
  | @perform s hs request ih =>
    rcases perform_cases s request with ⟨answer, -, heq⟩ | ⟨e, staging, hstaging, -, heq⟩
    · rw [heq]
      exact hstep s request hs ih
    · rw [heq]
      exact fails s staging hs hstaging ih

/-- Every session that was reached is valid, by induction on how it was reached. -/
theorem Reached.valid (h : s.Reached) : s.Valid := by
  refine Reached.induction ?start ?acts ?fails h
  case start => exact valid_empty
  case acts =>
    intro s name action s' _ hacts ih
    exact ih.acts hacts
  case fails =>
    intro s staging _ hstaging ih
    obtain ⟨hvalid, hgrows⟩ := ih.store.stage hstaging
    exact ⟨hvalid, fun hk => (ih.handles hk).mono hgrows⟩

/-! ## Failure -/

/-- Whether nothing that can be seen of a session differs in another one: names and what they stand
for, the relations of every registry, the rows of every stored relation in their order, what every
relation enumerates and accepts, and the answer to every question. -/
structure Unchanged (s s' : Session) : Prop where
  handles : s'.handles = s.handles
  registry : ∀ name, s'.store.registry name = s.store.registry name
  extension : ∀ b, s.store.Holds b → s'.store.extension b = s.store.extension b
  rows : ∀ r, s.store.Built r → s'.store.rows r = s.store.rows r
  accepts : ∀ r, s.store.Built r → ∀ t, s'.store.accepts r t = s.store.accepts r t
  ask : ∀ query, s'.ask query = s.ask query

/-- A store that keeps the rows and the registries changes no answer. -/
theorem Valid.unchanged (hs : s.Valid) {store : Store} (h : s.store.Keeps store) :
    s.Unchanged { s with store } where
  handles := rfl
  registry := h.registry
  extension _ hb := h.extension hs.store hb
  rows _ hr := h.rows hs.store hr
  accepts _ hr t := h.accepts hs.store hr t
  ask query := ask_of_keeps hs h query

/-- A request that fails leaves the session as it was. Where it is performed in place it fails in
the same way, and leaves everything as it was that can be seen of the session. -/
theorem unchanged_of_error {request : Request} (hs : s.Reached)
    (h : (s.step request).1 = .error e) :
    (s.step request).2 = s ∧ (s.perform request).1 = .error e ∧
      s.Unchanged (s.perform request).2 := by
  rcases perform_cases s request with ⟨answer, hstep, -⟩ | ⟨e', staging, -, hstep, heq⟩
  · rw [hstep] at h
    cases h
  · rw [hstep] at h
    obtain rfl : e' = e := Except.error.inj h
    rw [hstep, heq]
    exact ⟨rfl, rfl, hs.valid.unchanged (s.store.keeps_stage staging)⟩

/-- A dataset of which the last tuple breaks a guard. -/
def kinshipUpdate : Dataset where
  relations :=
    [{ name := "male", arity := 1, entries := [.bare (.text "piotr")] },
     { name := "older", arity := 2, properties := { irreflexive := true },
       entries := [.row [.text "teresa", .text "piotr"]] },
     { name := "male", arity := 1, entries := [.row [.text "jan"]] },
     { name := "older", arity := 2, entries := [.row [.text "ania", .text "ania"]] }]

theorem unchanged_of_error_kinshipUpdate :
    (kinship.step (.act (.install "main" kinshipUpdate) none)).1 =
        .error (.install (.loading "older"
          (.propertyViolation "older" .irreflexive [.text "ania", .text "ania"]))) ∧
      (kinship.step (.act (.install "main" kinshipUpdate) none)).2 = kinship ∧
      (kinship.perform (.act (.install "main" kinshipUpdate) none)).1 =
        .error (.install (.loading "older"
          (.propertyViolation "older" .irreflexive [.text "ania", .text "ania"]))) ∧
      kinship.Unchanged (kinship.perform (.act (.install "main" kinshipUpdate) none)).2 := by
  have hfails : (kinship.step (.act (.install "main" kinshipUpdate) none)).1 =
      .error (.install (.loading "older"
        (.propertyViolation "older" .irreflexive [.text "ania", .text "ania"]))) := rfl
  exact ⟨hfails, unchanged_of_error (reached_run .empty kinshipRequests) hfails⟩

/-- The failed installation in place did make relations: the numbers that it gave are gone. -/
example : (kinship.perform (.act (.install "main" kinshipUpdate) none)).2.store.next =
    kinship.store.next + 2 := rfl

end RelationAlgebra.Session
