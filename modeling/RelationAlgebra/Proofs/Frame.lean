import RelationAlgebra.Proofs.Agreement

/-!
# What a relation is computed from

A relation says the same over two stores with the same registries if the stored relations that it
consults have the same rows in both (`Store.Built.read_congr`). A store keeps another if it has the
registries of the other and its rows under every number that was given there. Then every question to
a session has the same answer over either store (`Session.ask_of_keeps`).
-/

namespace RelationAlgebra

/-- The operands that a relation is computed from. -/
def Relation.operands : Relation → List View
  | base _ => []
  | union _ views | intersection _ views => views
  | complement _ v _ => [v]
  | composition _ first second => compositionViews first second
  | converse _ relation => converseViews relation

/-- The operands of a derived relation are relations that it was derived of. -/
theorem Relation.operands_of_derive {id : Nat} {combinator : Combinator} {views : List View}
    {registry : String} {r : Relation} (h : derive id combinator views registry = .ok r) :
    ∀ w ∈ r.operands, ∃ v ∈ views, w.relation = v.relation := by
  intro w hw
  rcases derive_cases h with ⟨-, -, rfl⟩ | ⟨-, -, rfl⟩ | ⟨v, -, rfl, rfl⟩ |
    ⟨v, u, -, rfl, -, -, rfl⟩ | ⟨v, -, rfl, -, rfl⟩
  case inl => exact ⟨w, hw, rfl⟩
  case inr.inl => exact ⟨w, hw, rfl⟩
  case inr.inr.inl => exact ⟨w, hw, rfl⟩
  case inr.inr.inr.inl =>
    rcases List.mem_pair.mp hw with rfl | rfl
    · exact ⟨v, by simp, rfl⟩
    · exact ⟨u, by simp, rfl⟩
  case inr.inr.inr.inr =>
    obtain rfl := List.mem_singleton.mp hw
    exact ⟨v, by simp, rfl⟩

namespace Store

variable {s s' : Store} {r : Relation} {b : Base} {views : List View}

/-- Whether a relation is computed from the rows of a stored one: the latter is one of its leaves,
or a complement in it is taken in a registry that lists the latter under the arity of the operand. -/
inductive Consults (s : Store) : Relation → Base → Prop where
  | base {b : Base} : s.Consults (.base b) b
  | operand {r : Relation} {v : View} {b : Base} (hv : v ∈ r.operands)
      (h : s.Consults v.relation b) : s.Consults r b
  | ambient {id : Nat} {v : View} {registry : String} {b : Base}
      (hb : b ∈ s.ofArity registry v.relation.arity) (hid : b.id ≠ v.relation.id) :
      s.Consults (.complement id v registry) b

/-- The operands of a relation over a store are bound relations over it. -/
theorem Built.operands (hr : s.Built r) : ∀ v ∈ r.operands, s.BuiltView v := by
  refine Built.induction ?base ?union ?intersection ?complement ?composition ?converse hr
  case base =>
    intro b _ v hv
    cases hv
  case union => exact fun _ _ ih v hv => (ih v hv).1
  case intersection => exact fun _ _ ih v hv => (ih v hv).1
  case complement =>
    intro id v registry hv _ w hw
    exact List.mem_singleton.mp hw ▸ hv
  case composition => exact fun _ _ _ ih v hv => (ih v hv).1
  case converse => exact fun _ _ ih v hv => (ih v hv).1

/-- Over a valid store, a relation is computed from stored relations only. -/
theorem Built.holds_of_consults (hs : s.Valid) (hr : s.Built r) (h : s.Consults r b) :
    s.Holds b := by
  induction h with
  | base => exact hr.holds
  | operand hv _ ih => exact ih (hr.operands _ hv).relation
  | ambient hb _ => exact hs.registered (List.mem_of_mem_filter hb)

/-! ## The frame -/

theorem ambient_congr {registry : String} {arity id : Nat}
    (hregistry : s'.registry registry = s.registry registry)
    (h : ∀ b ∈ s.ofArity registry arity, b.id ≠ id → s'.extension b = s.extension b) :
    s'.ambient registry arity id = s.ambient registry arity id := by
  have hofArity : s'.ofArity registry arity = s.ofArity registry arity := by
    rw [ofArity, ofArity, hregistry]
  rw [ambient, ambient, hofArity]
  refine List.foldl_ext _ _ _ fun x b hb => ?_
  obtain ⟨hmem, hid⟩ := List.mem_filter.mp hb
  rw [h b hmem (by simpa using hid)]

theorem map_readBound_congr (h : ∀ v ∈ views, s'.read v.relation = s.read v.relation) :
    views.map s'.readBound = views.map s.readBound := by
  refine List.map_congr_left fun v hv => ?_
  rw [readBound_eq, readBound_eq, h v hv]

/-- A relation says the same wherever the registries and the rows that it consults are the same. -/
theorem Built.read_congr (hr : s.Built r)
    (hregistry : ∀ name, s'.registry name = s.registry name)
    (h : ∀ b, s.Consults r b → s'.extension b = s.extension b) : s'.read r = s.read r := by
  revert h
  refine Built.induction ?base ?union ?intersection ?complement ?composition ?converse hr
  case base =>
    intro b hb h
    rw [read, read, h b .base]
  case union =>
    intro id views ih h
    rw [read_union, read_union,
      map_readBound_congr fun v hv => (ih v hv).2 fun b hb => h b (.operand hv hb)]
  case intersection =>
    intro id views ih h
    rw [read_intersection, read_intersection,
      map_readBound_congr fun v hv => (ih v hv).2 fun b hb => h b (.operand hv hb)]
  case complement =>
    intro id v registry hv ih h
    have hoperand : s'.read v.relation = s.read v.relation :=
      ih fun b hb => h b (.operand (List.mem_singleton_self v) hb)
    rw [read_complement, read_complement, readBound_eq, readBound_eq, hoperand,
      ambient_congr (hregistry registry) fun b hb hid => h b (.ambient hb hid)]
  case composition =>
    intro id first second ih h
    rw [read_composition, read_composition,
      map_readBound_congr fun v hv => (ih v hv).2 fun b hb => h b (.operand hv hb)]
  case converse =>
    intro id relation ih h
    rw [read_converse, read_converse,
      map_readBound_congr fun v hv => (ih v hv).2 fun b hb => h b (.operand hv hb)]

/-- What a relation says does not hang on the number that the next relation will have. -/
@[simp]
theorem read_next (s : Store) (n : Nat) (r : Relation) :
    read { s with next := n } r = s.read r := by
  induction r using Relation.induction with
  | base b => rw [read, read]; rfl
  | union id views ih => rw [read_union, read_union, map_readBound_congr ih]
  | intersection id views ih => rw [read_intersection, read_intersection, map_readBound_congr ih]
  | complement id v registry ih =>
    rw [read_complement, read_complement, readBound_eq, readBound_eq, ih]
    rfl
  | composition id first second ih₁ ih₂ =>
    rw [read_composition, read_composition, map_readBound_congr]
    simp only [Relation.compositionViews, List.forall_mem_cons]
    exact ⟨ih₁, ih₂, by simp⟩
  | converse id relation ih =>
    rw [read_converse, read_converse, map_readBound_congr]
    simp only [Relation.converseViews, List.forall_mem_cons]
    exact ⟨ih, by simp⟩

@[simp]
theorem rows_next (s : Store) (n : Nat) (r : Relation) : rows { s with next := n } r = s.rows r := by
  rw [rows, rows, read_next]

@[simp]
theorem accepts_next (s : Store) (n : Nat) (r : Relation) (t : Tuple) :
    accepts { s with next := n } r t = s.accepts r t := by
  rw [accepts, accepts, read_next]

/-- Whether a store has the registries of `s`, and its rows under every number given in `s`. -/
structure Keeps (s s' : Store) : Prop where
  registries : s'.registries = s.registries
  lookup : ∀ {id}, id < s.next → s'.extensions.lookup id = s.extensions.lookup id

namespace Keeps

theorem registry (h : s.Keeps s') (name : String) : s'.registry name = s.registry name := by
  rw [Store.registry, Store.registry, h.registries]

/-- A relation that a store holds keeps its extension. -/
theorem extension (h : s.Keeps s') (hs : s.Valid) (hb : s.Holds b) :
    s'.extension b = s.extension b := by
  obtain ⟨x, hx, -⟩ := hb.exists_lookup
  rw [Store.extension, Store.extension, h.lookup (hs.next hx)]

/-- A built relation is read alike. -/
theorem read (h : s.Keeps s') (hs : s.Valid) (hr : s.Built r) : s'.read r = s.read r :=
  hr.read_congr h.registry fun _ hb => h.extension hs (hr.holds_of_consults hs hb)

theorem rows (h : s.Keeps s') (hs : s.Valid) (hr : s.Built r) : s'.rows r = s.rows r := by
  rw [Store.rows, Store.rows, h.read hs hr]

theorem accepts (h : s.Keeps s') (hs : s.Valid) (hr : s.Built r) (t : Tuple) :
    s'.accepts r t = s.accepts r t := by
  rw [Store.accepts, Store.accepts, h.read hs hr]

/-- The universe of a relation is kept with the registered relations of its arity. -/
theorem ambient (h : s.Keeps s') (hs : s.Valid) (registry : String) (arity id : Nat) :
    s'.ambient registry arity id = s.ambient registry arity id :=
  ambient_congr (h.registry registry) fun _ hb _ =>
    h.extension hs (hs.registered (List.mem_of_mem_filter hb))

end Keeps

end Store

namespace Session

variable {s : Session} {store : Store}

theorem Valid.holds (hs : s.Valid) {name : String} {b : Base} (h : s.binary name = .ok b) :
    s.store.Holds b := by
  unfold Session.binary at h
  split at h
  next hb => exact Except.ok.inj h ▸ hs.handles hb
  next => cases h

/-- A session answers the same over a store that keeps its own. -/
theorem ask_of_keeps (hs : s.Valid) (h : s.store.Keeps store) (query : Query) :
    { s with store }.ask query = s.ask query := by
  have hread : ∀ {name r}, s.relation name = .ok r → store.read r = s.store.read r :=
    fun hr => h.read hs.store (hs.built hr)
  cases query with
  | test relation t => exact bind_congr_ok fun r hr => by rw [h.accepts hs.store (hs.built hr)]
  | testAll relation ts => exact bind_congr_ok fun r hr => by simp only [hread hr]
  | filter relation candidates => exact bind_congr_ok fun r hr => by simp only [hread hr]
  | summary relation => exact bind_congr_ok fun r hr => by rw [h.rows hs.store (hs.built hr)]
  | rows relation => exact bind_congr_ok fun r hr => by rw [h.rows hs.store (hs.built hr)]
  | valuesAt relation position value =>
    exact bind_congr_ok fun r hr => by rw [h.rows hs.store (hs.built hr)]
  | isAntisymmetric relation =>
    exact bind_congr_ok fun b hb => by rw [h.extension hs.store (hs.holds hb)]
  | canAdd relation a b =>
    refine bind_congr_ok fun c hc => ?_
    simp only [Store.canAdd, h.extension hs.store (hs.holds hc)]
  | registry registry =>
    simp only [Session.ask, Answer.ofBases, h.registry]
    congr 2
    refine List.map_congr_left fun b hb => ?_
    rw [h.extension hs.store (hs.store.registered hb)]
  | ofArity registry arity => simp only [Session.ask, Store.ofArity, h.registry]
  | ambient registry relation =>
    exact bind_congr_ok fun r _ => by rw [h.ambient hs.store]
  | inspect | same | correspondence | extensionRows | extensionContains | extensionEqual
  | extensionAtoms | extensionValuesAt | holds | induces | checkInsert | validate => rfl

end Session

end RelationAlgebra
