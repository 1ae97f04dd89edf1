import RelationAlgebra.Proofs.Action
import RelationAlgebra.Proofs.Construction

/-!
# Reachable states

A state is reachable if some list of requests, answered one after another, leads to it from the empty
session. Every step of a session keeps its store valid and its handles over its store, whether the
request succeeds or fails. Hence every reachable store is valid (`Store.Reachable.valid`), and every
relation that a session has a name for is a relation over its store (`Session.built_of_run`).
-/

namespace RelationAlgebra

/-- Whether what a name stands for is made of relations over a store. -/
def Handle.Over (s : Store) : Handle → Prop
  | relation r => s.Built r
  | binary b => s.Holds b
  | view v => s.BuiltView v
  | extension _ | scan _ => True

/-- A handle stays good as the store grows. -/
theorem Handle.Over.mono {s s' : Store} {h : Handle} (hs : s.Grows s') (hh : h.Over s) :
    h.Over s' := by
  cases h with
  | relation r => exact Store.Built.mono hs hh
  | binary b => exact hs.holds hh
  | view v => exact Store.BuiltView.mono hs hh
  | extension | scan => trivial

namespace Session

variable {s s' : Session} {name : Option String}

/-- A valid store, and handles over it. -/
structure Valid (s : Session) : Prop where
  store : s.store.Valid
  handles : ∀ {name h}, s.handles.lookup name = some h → h.Over s.store

theorem valid_empty : empty.Valid := by
  refine ⟨Store.valid_empty, fun h => ?_⟩
  cases h

/-- Keeping a handle over the store keeps a session valid. -/
theorem Valid.keep (hs : s.Valid) (name : Option String) (h : Handle) (hh : h.Over s.store) :
    (s.keep name h).Valid := by
  refine ⟨by simpa using hs.store, fun {n k} hk => ?_⟩
  rw [store_keep]
  rcases lookup_of_keep hk with hk | rfl
  · exact hs.handles hk
  · exact hh

/-- A handle over a larger store may be kept along with it. -/
theorem Valid.keep_of_grows (hs : s.Valid) {store : Store} (hstore : store.Valid)
    (hgrows : s.store.Grows store) (name : Option String) (h : Handle) (hh : h.Over store) :
    ({ s with store }.keep name h).Valid :=
  Valid.keep (s := { s with store }) ⟨hstore, fun hk => (hs.handles hk).mono hgrows⟩ name h hh

/-- What a handle of a valid session names is built over its store. -/
theorem Valid.built (hs : s.Valid) {name : String} {r : Relation} (h : s.relation name = .ok r) :
    s.store.Built r := by
  unfold Session.relation at h
  split at h
  next hr => exact Except.ok.inj h ▸ hs.handles hr
  next hb => exact Except.ok.inj h ▸ .base (hs.handles hb)
  next => cases h

/-- Everything that a session may be asked to keep is over its store. -/
theorem Valid.over_of_offers (hs : s.Valid) {k : Handle} (h : s.Offers k) : k.Over s.store := by
  cases h with
  | kept h => exact hs.handles h
  | whole h => exact (hs.built h).identityView
  | bound h hv => exact (hs.built h).bind hv
  | listed h => exact .base (hs.store.registered h)
  | extension | scan => trivial

/-- An action that succeeds keeps the session valid. -/
theorem Valid.acts (hs : s.Valid) {action : Action} (h : s.Acts name action s') : s'.Valid := by
  cases h with
  | answers => exact hs
  | keeps _ hk => exact hs.keep name _ (hs.over_of_offers hk)
  | moves _ c => exact hs.keep _ (.scan c) trivial
  | @declares _ registry schema handle hdeclares =>
    obtain ⟨hvalid, hgrows, hholds⟩ := hs.store.declare registry schema
    refine hs.keep_of_grows hvalid hgrows name _ ?_
    cases hdeclares with
    | plain => exact .base hholds
    | binary => exact hholds
  | @derives _ _ _ _ r _ _ hviews h =>
    obtain ⟨hvalid, hgrows, hbuilt⟩ :=
      hs.store.derive (fun v hv => hs.over_of_offers (hviews v hv)) h
    exact hs.keep_of_grows hvalid hgrows name (.relation r) hbuilt
  | @fills _ _ b _ hb h =>
    have hbase : ∀ c, Relation.base b = .base c → s.store.Holds c := by
      rintro c ⟨⟩
      exact (hs.built hb).holds
    obtain ⟨hvalid, hgrows⟩ := hs.store.addAll hbase h
    exact ⟨hvalid, fun hk => (hs.handles hk).mono hgrows⟩
  | installs h =>
    obtain ⟨hvalid, hgrows⟩ := hs.store.install h
    exact ⟨hvalid, fun hk => (hs.handles hk).mono hgrows⟩

/-- A request keeps a session valid: either it fails, or it makes what is over the new store. -/
theorem Valid.step (hs : s.Valid) (request : Request) : (s.step request).2.Valid :=
  step_induction hs fun _ _ _ h => hs.acts h

/-- A run keeps a session valid, by induction on its requests. -/
theorem Valid.run (hs : s.Valid) (requests : List Request) : (s.run requests).2.Valid := by
  induction requests generalizing s with
  | nil => exact hs
  | cons request requests ih => exact ih (hs.step request)

/-- Every relation that a session has a name for, after any requests, is one over its store. -/
theorem built_of_run {requests : List Request} {name : String} {r : Relation}
    (h : (empty.run requests).2.relation name = .ok r) : (empty.run requests).2.store.Built r :=
  (valid_empty.run requests).built h

end Session

/-- Whether some requests lead from the empty session to a store. -/
def Store.Reachable (s : Store) : Prop :=
  ∃ requests, (Session.empty.run requests).2.store = s

/-- Every store that requests lead to is valid, since the empty one is. -/
theorem Store.Reachable.valid {s : Store} (h : s.Reachable) : s.Valid := by
  obtain ⟨requests, rfl⟩ := h
  exact (Session.valid_empty.run requests).store

namespace Session

/-- The requests of a small example. One operand of `known` leaves a column open, so it is under all
of `mutual` and under a complement in `relative`. -/
def kinshipRequests : List Request :=
  let A : Binding := .var (.named "A")
  let B : Binding := .var (.named "B")
  [.act (.declareBinary "parent" { transitive := true } (some "main")) (some "parent"),
   .act (.declare "female" 1 (some "main")) (some "female"),
   .act (.addAll "parent" [[.text "teresa", .text "piotr"], [.text "piotr", .text "ania"]]) none,
   .act (.addAll "female" [[.text "teresa"], [.text "ania"]]) none,
   .act (.derive .union [.bound "parent" [A, B], .bound "female" [A]] "main") (some "known"),
   .act (.derive .intersection [.bound "known" [A, B], .bound "known" [B, A]] "main")
     (some "mutual"),
   .act (.derive .complement [.handle "mutual"] "main") (some "oneSided"),
   .act (.derive .composition [.handle "parent", .handle "parent"] "main") (some "grandparent"),
   .act (.derive .union [.bound "grandparent" [A, B], .bound "oneSided" [B, A]] "main")
     (some "relative")]

def kinship : Session := (empty.run kinshipRequests).2

theorem reachable_kinship : kinship.store.Reachable := ⟨kinshipRequests, rfl⟩

def kinshipParent : Base :=
  { name := "parent", arity := 2, properties := { transitive := true }, id := 0 }

def kinshipFemale : Base := { name := "female", arity := 1, id := 1 }

theorem holds_kinshipParent : kinship.store.Holds kinshipParent := rfl

theorem holds_kinshipFemale : kinship.store.Holds kinshipFemale := rfl

/-- The relations of the example are built over its store. -/
theorem built_kinship {name : String} {r : Relation} (h : kinship.relation name = .ok r) :
    kinship.store.Built r := built_of_run h

/-- The requests of an example with three stored relations of one arity, each of which declares
another property and accepts pairs that are not stored. -/
def transitRequests : List Request :=
  [.act (.declareBinary "rail" { symmetric := true } (some "main")) (some "rail"),
   .act (.declareBinary "flight" { transitive := true } (some "main")) (some "flight"),
   .act (.declareBinary "ferry" { reflexive := true } none) (some "ferry"),
   .act (.addAll "rail" [[.text "oslo", .text "bergen"], [.text "bergen", .text "voss"]]) none,
   .act (.addAll "flight" [[.text "bergen", .text "oslo"], [.text "oslo", .text "alta"]]) none,
   .act (.addAll "ferry" [[.text "bergen", .text "voss"], [.text "voss", .text "oslo"]]) none]

def transit : Session := (empty.run transitRequests).2

theorem reachable_transit : transit.store.Reachable := ⟨transitRequests, rfl⟩

def transitRail : Base :=
  { name := "rail", arity := 2, properties := { symmetric := true }, id := 0 }

def transitFlight : Base :=
  { name := "flight", arity := 2, properties := { transitive := true }, id := 1 }

def transitFerry : Base :=
  { name := "ferry", arity := 2, properties := { reflexive := true }, id := 2 }

theorem holds_transitRail : transit.store.Holds transitRail := rfl

theorem holds_transitFlight : transit.store.Holds transitFlight := rfl

theorem holds_transitFerry : transit.store.Holds transitFerry := rfl

end Session

end RelationAlgebra
