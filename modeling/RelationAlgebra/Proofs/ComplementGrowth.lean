import RelationAlgebra.Proofs.Complement
import RelationAlgebra.Proofs.Declared
import RelationAlgebra.Proofs.Monotonicity

/-!
# Growth of complements

The complement of a bound stored relation reads two things that grow. One is the relation itself: its
rows change only where tuples are added to it, and the more it accepts the less its complement holds.
The other is what the complement is taken in, which changes only where relations are registered or
where tuples are added to another registered relation of the arity, and then the complement holds
more. So a run without requests of the second sort only takes tuples away, a run without requests of
the first sort only adds tuples, and a run without either changes nothing
(`Session.complement_growth`).
-/

namespace RelationAlgebra

namespace Store

variable {s s' : Store} {b : Base} {slots : Slots} {registry : String} {v : View} {id : Nat}
  {row t : Tuple}

/-- A complement holds more where more rows are ambient and where fewer are accepted. -/
theorem Complements.mono (h : s.Complements registry v t)
    (hambient : ∀ row, s.Ambient registry v.relation row → s'.Ambient registry v.relation row)
    (haccepts : ∀ row, s'.accepts v.relation row = true → s.accepts v.relation row = true) :
    s'.Complements registry v t := by
  obtain ⟨ν, ⟨row, hrow, hfit, hrejects⟩, ht⟩ := h
  have hrejects' : s'.accepts v.relation row = false := by
    rw [← Bool.not_eq_true] at hrejects ⊢
    exact fun haccepted => hrejects (haccepts row haccepted)
  exact ⟨ν, ⟨row, hambient row hrow, hfit, hrejects'⟩, ht⟩

theorem retains_complement (hs : s.Valid) (hs' : s'.Valid) (hv : s.BuiltView v)
    (hv' : s'.BuiltView v)
    (hambient : ∀ row, s.Ambient registry v.relation row → s'.Ambient registry v.relation row)
    (haccepts : ∀ row, s'.accepts v.relation row = true → s.accepts v.relation row = true) :
    s.Retains s' (.complement id v registry) := by
  refine ⟨fun t ht => ?_, fun t ht => ?_⟩
  · rw [mem_rows_complement hs hv] at ht
    exact (mem_rows_complement hs' hv').mpr (ht.mono hambient haccepts)
  · rw [accepts_complement_iff hs hv] at ht
    exact (accepts_complement_iff hs' hv').mpr (ht.mono hambient haccepts)

theorem Extends.ambient (h : s.Extends s') {r : Relation} (hrow : s.Ambient registry r row) :
    s'.Ambient registry r row := by
  obtain ⟨c, hc, hid, harity, hrow⟩ := hrow
  exact ⟨c, (h.registry registry).subset hc, hid, harity, (h.rows c).subset hrow⟩

theorem read_base_congr (h : s'.extension b = s.extension b) :
    s'.read (.base b) = s.read (.base b) := by
  rw [read, read, h]

theorem read_complement_congr (hrows : s'.extension b = s.extension b)
    (hambient : s'.ambient registry b.arity b.id = s.ambient registry b.arity b.id) :
    s'.read (.complement id ⟨.base b, slots⟩ registry) =
      s.read (.complement id ⟨.base b, slots⟩ registry) := by
  have hambient' : s'.ambient registry (Relation.base b).arity (Relation.base b).id =
      s.ambient registry (Relation.base b).arity (Relation.base b).id := hambient
  rw [read_complement, read_complement, hambient', readBound_eq, readBound_eq,
    read_base_congr hrows]

/-- With more rows for the relation and the same rows to be taken in, the complement of a stored
relation holds no more than before. -/
theorem Extends.retains_complement_of_ambient (h : s.Extends s') (hs : s.Valid) (hs' : s'.Valid)
    (hv : s.BuiltView ⟨.base b, slots⟩)
    (hambient : s'.ambient registry b.arity b.id = s.ambient registry b.arity b.id) :
    s'.Retains s (.complement id ⟨.base b, slots⟩ registry) := by
  have hgrown : s.Retains s' (.base b) := h.retains hs hs' hv.relation rfl
  refine retains_complement hs' hs (hv.mono h.grows) hv (fun row hrow => ?_) hgrown.accepts
  have hmem : row ∈ (s'.ambient registry b.arity b.id).rows := mem_rows_ambient.mpr hrow
  rw [hambient] at hmem
  exact mem_rows_ambient.mp hmem

/-- With the same rows for the relation and more rows to be taken in, the complement of a stored
relation holds no less than before. -/
theorem Extends.retains_complement_of_rows (h : s.Extends s') (hs : s.Valid) (hs' : s'.Valid)
    (hv : s.BuiltView ⟨.base b, slots⟩) (hrows : s'.extension b = s.extension b) :
    s.Retains s' (.complement id ⟨.base b, slots⟩ registry) := by
  refine retains_complement hs hs' hv (hv.mono h.grows) (fun row => h.ambient) fun row hrow => ?_
  rw [accepts, read_base_congr hrows] at hrow
  exact hrow

end Store

namespace Session

variable {s s' : Session} {b : Base} {registry : String} {request : Request} {store : Store}
  {allowed : Session → Request → Prop}

/-- Whether a request asks to add tuples to a stored relation of a certain kind. -/
def AddsTo (s : Session) (kind : Base → Prop) (request : Request) : Prop :=
  ∃ relation tuples name c, request = .act (.addAll relation tuples) name ∧
    s.relation relation = .ok (.base c) ∧ kind c

/-- Whether a request asks to add tuples to the relation with the number of `b`. -/
def Fills (s : Session) (b : Base) (request : Request) : Prop :=
  s.AddsTo (fun c => c.id = b.id) request

/-- Whether a request asks to register relations, or to add tuples to a relation that the registry
lists beside `b` with the arity of `b`. -/
def Surrounds (s : Session) (registry : String) (b : Base) (request : Request) : Prop :=
  request.target? = some registry ∨
    s.AddsTo (fun c => c ∈ s.store.registry registry ∧ c.id ≠ b.id ∧ c.arity = b.arity) request

theorem addsTo_iff {kind : Base → Prop} {relation : String} {tuples : List Tuple}
    {name : Option String} {c : Base} (hc : s.relation relation = .ok (.base c)) :
    s.AddsTo kind (.act (.addAll relation tuples) name) ↔ kind c := by
  constructor
  · rintro ⟨_, _, _, d, heq, hd, hkind⟩
    cases heq
    rw [hc] at hd
    cases hd
    exact hkind
  · exact fun hkind => ⟨_, _, _, c, rfl, hc, hkind⟩

/-- No request is of both sorts, as it adds tuples to one relation only. -/
theorem Fills.not_surrounds (h : s.Fills b request) : ¬ s.Surrounds registry b request := by
  obtain ⟨relation, tuples, name, c, rfl, hc, hid⟩ := h
  rintro (htarget | hadds)
  · cases htarget
  · exact ((addsTo_iff hc).mp hadds).2.1 hid

/-- Whether a request of an allowed kind leads from one session to another. -/
def Moves (allowed : Session → Request → Prop) (s s' : Session) : Prop :=
  ∃ request, allowed s request ∧ (s.step request).2 = s'

/-! ## Single steps -/

/-- The rows of a stored relation change only where tuples are added to it. -/
theorem Valid.extension_of_writes (hs : s.Valid) (hb : s.store.Holds b)
    (h : s.Writes request store) (hno : ¬ s.Fills b request) :
    store.extension b = s.store.extension b := by
  cases h with
  | @fills relation tuples name c _ hc hadd =>
    obtain ⟨x, -, rfl⟩ := Store.addAll_base_eq_ok_iff.mp hadd
    have hne : b.id ≠ c.id := fun hid => hno ⟨relation, tuples, name, c, rfl, hc, hid.symm⟩
    rw [Store.extension_refill, if_neg hne]
  | makes hstaging =>
    obtain ⟨x, hx, -⟩ := hb.exists_lookup
    exact Store.extension_make _ (hs.store.next hx)
  | counts => rfl

/-- What the complement of a stored relation is taken in changes only where relations are registered
or where tuples are added to another registered relation of the arity. -/
theorem Reached.ambient_of_writes (hs : s.Reached) (h : s.Writes request store)
    (hno : ¬ s.Surrounds registry b request) :
    store.ambient registry b.arity b.id = s.store.ambient registry b.arity b.id := by
  cases h with
  | @fills relation tuples name c _ hc hadd =>
    obtain ⟨x, -, rfl⟩ := Store.addAll_base_eq_ok_iff.mp hadd
    refine Store.ambient_congr rfl fun d hd hid => ?_
    obtain ⟨hmem, harity⟩ := List.mem_filter.mp hd
    have hne : d.id ≠ c.id := by
      intro heq
      have hsame : d = c := hs.lawful.unique (.registered hmem) (knows_of_relation hc (.base c)) heq
      rw [hsame] at hmem hid harity
      exact hno (.inr ⟨relation, tuples, name, c, rfl, hc, hmem, hid, by simpa using harity⟩)
    rw [Store.extension_refill, if_neg hne]
  | makes hstaging =>
    have htarget : request.target? ≠ some registry := fun heq => hno (.inl heq)
    refine Store.ambient_congr (by rw [Store.registry_make, if_neg htarget]) fun d hd _ => ?_
    have hholds := hs.valid.store.registered (List.mem_of_mem_filter hd)
    obtain ⟨x, hx, -⟩ := hholds.exists_lookup
    exact Store.extension_make _ (hs.valid.store.next hx)
  | counts => rfl

/-! ## Runs -/

theorem Reached.of_moves (hs : s.Reached)
    (h : Relation.ReflTransGen (Moves allowed) s s') : s'.Reached := by
  induction h with
  | refl => exact hs
  | tail _ hmove ih =>
    obtain ⟨request, -, rfl⟩ := hmove
    exact ih.step request

theorem Reached.extends_of_moves (hs : s.Reached)
    (h : Relation.ReflTransGen (Moves allowed) s s') : s.store.Extends s'.store := by
  induction h with
  | refl => exact .refl _
  | tail hprev hmove ih =>
    obtain ⟨request, -, rfl⟩ := hmove
    have hvalid := (hs.of_moves hprev).valid
    exact ih.trans (hvalid.extends_of_writes (writes_step _ request))

theorem Reached.extension_of_moves (hs : s.Reached) (hb : s.store.Holds b)
    (hallowed : ∀ s request, allowed s request → ¬ s.Fills b request)
    (h : Relation.ReflTransGen (Moves allowed) s s') :
    s'.store.extension b = s.store.extension b := by
  induction h with
  | refl => rfl
  | tail hprev hmove ih =>
    obtain ⟨request, hrequest, rfl⟩ := hmove
    have hholds := (hs.extends_of_moves hprev).grows.holds hb
    have hstep := (hs.of_moves hprev).valid.extension_of_writes hholds (writes_step _ request)
      (hallowed _ _ hrequest)
    exact hstep.trans ih

/-- Requests none of which surrounds `b` leave what its complement is taken in as it was. -/
theorem Reached.ambient_of_moves (hs : s.Reached)
    (hallowed : ∀ s request, allowed s request → ¬ s.Surrounds registry b request)
    (h : Relation.ReflTransGen (Moves allowed) s s') :
    s'.store.ambient registry b.arity b.id = s.store.ambient registry b.arity b.id := by
  induction h with
  | refl => rfl
  | tail hprev hmove ih =>
    obtain ⟨request, hrequest, rfl⟩ := hmove
    have hstep := (hs.of_moves hprev).ambient_of_writes (writes_step _ request)
      (hallowed _ _ hrequest)
    exact hstep.trans ih

/-- How the complement of a bound stored relation reacts to requests. It loses nothing unless tuples
are added to the relation. It gains nothing unless relations are registered or tuples are added to
another registered relation of the arity. Without any of this, in whatever order other requests
come, it enumerates the same rows in the same order and accepts the same tuples. -/
theorem complement_growth (hs : s.Reached) (hb : s.store.Holds b) {slots : Slots}
    (hslots : slots.length = b.arity) (id : Nat) (registry : String) :
    ∃ r, Relation.derive id .complement [⟨.base b, slots⟩] registry = .ok r ∧ ∀ s',
      (Relation.ReflTransGen (Moves fun s request => ¬ s.Surrounds registry b request) s s' →
        s'.store.Retains s.store r) ∧
      (Relation.ReflTransGen (Moves fun s request => ¬ s.Fills b request) s s' →
        s.store.Retains s'.store r) ∧
      (Relation.ReflTransGen
          (Moves fun s request => ¬ s.Fills b request ∧ ¬ s.Surrounds registry b request) s s' →
        s'.store.rows r = s.store.rows r ∧
          ∀ t, s'.store.accepts r t = s.store.accepts r t) := by
  have hv : s.store.BuiltView ⟨.base b, slots⟩ := ⟨.base hb, hslots⟩
  refine ⟨_, rfl, fun s' => ⟨fun h => ?_, fun h => ?_, fun h => ?_⟩⟩
  · exact (hs.extends_of_moves h).retains_complement_of_ambient hs.valid.store
      (hs.of_moves h).valid.store hv (hs.ambient_of_moves (fun _ _ hno => hno) h)
  · exact (hs.extends_of_moves h).retains_complement_of_rows hs.valid.store
      (hs.of_moves h).valid.store hv (hs.extension_of_moves hb (fun _ _ hno => hno) h)
  · have hrows := hs.extension_of_moves hb (fun _ _ hno => hno.1) h
    have hambient : s'.store.ambient registry b.arity b.id =
        s.store.ambient registry b.arity b.id := hs.ambient_of_moves (fun _ _ hno => hno.2) h
    have hread : s'.store.read (.complement id ⟨.base b, slots⟩ registry) =
        s.store.read (.complement id ⟨.base b, slots⟩ registry) :=
      Store.read_complement_congr hrows hambient
    exact ⟨congrArg Reading.extension hread, fun t => congrFun (congrArg Reading.accepts hread) t⟩

/-- The stations from which a train goes to where no flight goes. A flight between other stations
takes one away, a train adds one, and the ferries are not registered. -/
theorem complement_growth_transit :
    ∃ r, Relation.derive 9 .complement [⟨.base transitFlight, [.var (.named "A"), .wildcard]⟩]
        "main" = .ok r ∧
      (transit.store.rows r).rows = [[.text "oslo"], [.text "bergen"]] ∧
      (let s := (transit.step (.act (.addAll "flight" [[.text "alta", .text "bergen"]]) none)).2
      s.store.Retains transit.store r ∧ (s.store.rows r).rows = [[.text "bergen"]]) ∧
      (let s := (transit.step (.act (.addAll "rail" [[.text "voss", .text "oslo"]]) none)).2
      transit.store.Retains s.store r ∧
        (s.store.rows r).rows = [[.text "oslo"], [.text "bergen"], [.text "voss"]]) ∧
      (let s := (transit.step (.act (.addAll "ferry" [[.text "voss", .text "alta"]]) none)).2
      s.store.rows r = transit.store.rows r ∧
        ∀ t, s.store.accepts r t = transit.store.accepts r t) := by
  have hreached : transit.Reached := reached_run .empty transitRequests
  have hslots : ([.var (.named "A"), .wildcard] : Slots).length = transitFlight.arity := rfl
  have hrail : transit.relation "rail" = .ok (.base transitRail) := rfl
  have hflight : transit.relation "flight" = .ok (.base transitFlight) := rfl
  have hferry : transit.relation "ferry" = .ok (.base transitFerry) := rfl
  obtain ⟨r, hr, hgrowth⟩ := complement_growth hreached holds_transitFlight hslots 9 "main"
  obtain rfl := Except.ok.inj hr
  refine ⟨_, rfl, by decide, ⟨?flight, by decide⟩, ⟨?rail, by decide⟩, ?ferry⟩
  case flight =>
    have hfills : transit.Fills transitFlight
        (.act (.addAll "flight" [[.text "alta", .text "bergen"]]) none) :=
      (addsTo_iff hflight).mpr rfl
    exact (hgrowth _).1 (.single ⟨_, hfills.not_surrounds, rfl⟩)
  case rail =>
    have hfills : ¬ transitRail.id = transitFlight.id := by decide
    exact (hgrowth _).2.1 (.single ⟨_, mt (addsTo_iff hrail).mp hfills, rfl⟩)
  case ferry =>
    have hfills : ¬ transitFerry.id = transitFlight.id := by decide
    have hsurrounds : ¬ (transitFerry ∈ transit.store.registry "main" ∧
        transitFerry.id ≠ transitFlight.id ∧ transitFerry.arity = transitFlight.arity) := by decide
    exact (hgrowth _).2.2 (.single ⟨_, ⟨mt (addsTo_iff hferry).mp hfills,
      not_or.mpr ⟨nofun, mt (addsTo_iff hferry).mp hsurrounds⟩⟩, rfl⟩)

end Session

end RelationAlgebra
