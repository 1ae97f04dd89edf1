import RelationAlgebra.Proofs.Complement

/-!
# Complements of complements

A complement is taken in the rows that a registry holds for an arity, those of the relation itself
left out. The complement of a complement is taken in all of them, as no registry lists a derived
relation. So the two are not taken in the same rows, and a relation does not come back as it was:
what comes back are the rows of the registry that it accepts, those that it merely induces among
them, and no others (`Store.complement_complement`).
-/

namespace RelationAlgebra

namespace Store

variable {s : Store} {registry : String} {r : Relation} {b : Base} {t : Tuple} {id : Nat}

/-- Whether a tuple is a row of some relation of a registry, of arity `n`. -/
def Registered (s : Store) (registry : String) (n : Nat) (t : Tuple) : Prop :=
  ∃ b ∈ s.registry registry, b.arity = n ∧ t ∈ (s.extension b).rows

/-- A reserved number is none of the numbers of the stored relations. -/
theorem Reserves.ne_of_holds (hid : s.Reserves id) (hb : s.Holds b) : b.id ≠ id := by
  rintro rfl
  obtain ⟨x, hx, -⟩ := hb.exists_lookup
  rw [hid.2] at hx
  cases hx

/-- A derived relation has a number that no stored relation has. -/
theorem Built.reserves (h : s.Built r) (hd : r.isDerived = true) : s.Reserves r.id := by
  cases h with
  | base => cases hd
  | derive hid _ _ h =>
    rcases Relation.derive_cases h with ⟨-, -, rfl⟩ | ⟨-, -, rfl⟩ | ⟨v, -, -, rfl⟩ |
      ⟨v, w, -, -, -, -, rfl⟩ | ⟨v, -, -, -, rfl⟩
    all_goals exact hid

/-- A relation accepts the rows that a registry holds for its arity, unless another relation of the
registry has them. -/
theorem accepts_or_ambient (hs : s.Valid) (hr : s.Built r)
    (ht : s.Registered registry r.arity t) :
    s.accepts r t = true ∨ s.Ambient registry r t := by
  obtain ⟨b, hb, harity, ht⟩ := ht
  -- a derived relation has a number of its own, so only a stored one can be meant by `b`
  by_cases hid : b.id = r.id
  · cases r with
    | base c =>
      rw [(hs.registered hb).extension_eq hid] at ht
      exact Or.inl (hs.accepts_of_mem_extension ht)
    | union | intersection | complement | composition | converse =>
      exact absurd hid ((hr.reserves rfl).ne_of_holds (hs.registered hb))
  · exact Or.inr ⟨b, hb, hid, harity, ht⟩

theorem Ambient.registered (h : s.Ambient registry r t) : s.Registered registry r.arity t := by
  obtain ⟨b, hb, -, harity, ht⟩ := h
  exact ⟨b, hb, harity, ht⟩

/-- To a relation with a reserved number every registered row of its arity is ambient. -/
theorem ambient_iff_registered (hs : s.Valid) (hid : s.Reserves r.id) :
    s.Ambient registry r t ↔ s.Registered registry r.arity t := by
  refine ⟨Ambient.registered, ?_⟩
  rintro ⟨b, hb, harity, ht⟩
  exact ⟨b, hb, hid.ne_of_holds (hs.registered hb), harity, ht⟩

theorem BuiltView.complement {v : View} (hv : s.BuiltView v) (hid : s.Reserves id) :
    s.Built (.complement id v registry) := by
  have hviews : ∀ w ∈ [v], s.BuiltView w := by simpa using hv
  have hderive : Relation.derive id .complement [v] registry = .ok (.complement id v registry) :=
    rfl
  exact .derive hid (fun w hw => (hviews w hw).relation) (fun w hw => (hviews w hw).slots) hderive

theorem arity_complement_identityView :
    (Relation.complement id r.identityView registry).arity = r.arity := by
  rw [Relation.arity, Relation.identityView_eq,
    Bound.correspondence_vars (nodup_positional r.arity) r, Var.length_positional]

/-- The complement of a complement has the registered rows that the relation accepts. -/
theorem complements_complement (hs : s.Valid) (hr : s.Built r) (hid : s.Reserves id) :
    s.Complements registry (Relation.complement id r.identityView registry).identityView t ↔
      s.Registered registry r.arity t ∧ s.accepts r t = true := by
  have hinner : s.accepts (.complement id r.identityView registry) t = false ↔
      ¬ (s.Ambient registry r t ∧ s.accepts r t = false) := by
    rw [← complements_identityView hs, ← accepts_complement_iff hs hr.identityView,
      Bool.not_eq_true]
  have harity : (Relation.complement id r.identityView registry).arity = r.arity :=
    arity_complement_identityView
  have hambient : s.Ambient registry (.complement id r.identityView registry) t ↔
      s.Registered registry r.arity t := by
    rw [← harity]
    exact ambient_iff_registered hs hid
  rw [complements_identityView hs, hambient, hinner]
  refine and_congr_right fun ht => ?_
  constructor
  · intro h
    rcases accepts_or_ambient hs hr ht with haccepts | hother
    · exact haccepts
    · simpa [hother] using h
  · intro haccepts h
    rw [haccepts] at h
    cases h.2

/-- The complement of the complement of an unbound relation holds the rows of the registry that have
the arity of the relation and that it accepts. -/
theorem complement_complement (hs : s.Reachable) (hr : s.Built r) (hid : s.Reserves id)
    (id' : Nat) (registry : String) :
    ∃ p q, Relation.derive id .complement [r.identityView] registry = .ok p ∧
      Relation.derive id' .complement [p.identityView] registry = .ok q ∧
      ∀ t, (s.accepts q t = true ↔ s.Registered registry r.arity t ∧ s.accepts r t = true) ∧
        (t ∈ (s.rows q).rows ↔ s.Registered registry r.arity t ∧ s.accepts r t = true) := by
  have hp : s.BuiltView (Relation.complement id r.identityView registry).identityView :=
    (hr.identityView.complement hid).identityView
  refine ⟨_, _, rfl, rfl, fun t => ⟨?accepts, ?rows⟩⟩
  case accepts =>
    rw [accepts_complement_iff hs.valid hp, complements_complement hs.valid hr hid]
  case rows =>
    rw [mem_rows_complement hs.valid hp, complements_complement hs.valid hr hid]

theorem complement_complement_mutual :
    ∃ m, Session.kinship.relation "mutual" = .ok m ∧
      ∃ p q, Relation.derive 4 .complement [m.identityView] "main" = .ok p ∧
        Relation.derive 7 .complement [p.identityView] "main" = .ok q ∧
        ∀ t, (Session.kinship.store.accepts q t = true ↔
            Session.kinship.store.Registered "main" m.arity t ∧
              Session.kinship.store.accepts m t = true) ∧
          (t ∈ (Session.kinship.store.rows q).rows ↔
            Session.kinship.store.Registered "main" m.arity t ∧
              Session.kinship.store.accepts m t = true) := by
  have hmutual : ∃ m, Session.kinship.relation "mutual" = .ok m := ⟨_, rfl⟩
  obtain ⟨m, hm⟩ := hmutual
  exact ⟨m, hm, complement_complement Session.reachable_kinship (Session.built_kinship hm)
    ⟨by decide, rfl⟩ 7 "main"⟩

end Store

end RelationAlgebra
