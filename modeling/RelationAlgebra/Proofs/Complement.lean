import RelationAlgebra.Proofs.Unbound

/-!
# Complements

The declarative meaning of a complement. The ambient rows of a relation are the rows of the other
registered relations of its arity. The complement of a bound relation holds the tuples of variables
of those ambient rows that fit the bindings and that the relation rejects; as rejecting goes by
membership, rows that the relation only induces are left out. Enumeration and both ways of testing
membership, asking for one row and walking all ambient rows, come to this. The complement of an
unbound relation is what remains of the ambient rows when the accepted ones are taken away.
-/

namespace RelationAlgebra

namespace Store

variable {s : Store} {registry : String} {v : View} {r : Relation} {row t : Tuple} {id : Nat}

/-- Whether a row is stored for another relation of the registry with the arity of `r`. -/
def Ambient (s : Store) (registry : String) (r : Relation) (row : Tuple) : Prop :=
  ∃ b ∈ s.registry registry, b.id ≠ r.id ∧ b.arity = r.arity ∧ row ∈ (s.extension b).rows

/-- Whether a tuple lists the atoms that the variables of a bound relation have in some ambient row
which fits the bindings and which the relation rejects. -/
def Complements (s : Store) (registry : String) (v : View) (t : Tuple) : Prop :=
  ∃ ν : Valuation,
    (∃ row, s.Ambient registry v.relation row ∧ v.slots.Fits ν row ∧
      s.accepts v.relation row = false) ∧
    t = (Bound.correspondence [v]).map ν

/-- The ambient rows, as the program collects them. -/
def ambientOf (s : Store) (registry : String) (r : Relation) : Extension :=
  s.ambient registry r.arity r.id

/-- The answer to a membership test by asking for one row. -/
def looksUp (s : Store) (registry : String) (v : View) (row : Tuple) : Bool :=
  (s.ambientOf registry v.relation).contains row && !s.accepts v.relation row

/-- The answer to a membership test by walking the ambient rows. -/
def scans (s : Store) (registry : String) (v : View) (t : Tuple) : Bool :=
  (s.ambientOf registry v.relation).rows.any fun row =>
    ((Assignment.ofOutput (Bound.correspondence [v]) t).unify v.slots row).isSome &&
      !s.accepts v.relation row

theorem mem_rows_ambientOf : row ∈ (s.ambientOf registry r).rows ↔ s.Ambient registry r row :=
  mem_rows_ambient

theorem Valid.length_of_ambient (hs : s.Valid) (h : s.Ambient registry r row) :
    row.length = r.arity :=
  hs.length_of_mem_ambient (mem_rows_ambientOf.mpr h)

/-- A complement is asked for one row where the columns of the tuple settle all slots, and walks the
ambient rows otherwise. -/
theorem accepts_complement (s : Store) (id : Nat) (v : View) (registry : String) (t : Tuple) :
    s.accepts (.complement id v registry) t =
      (t.length == (Bound.correspondence [v]).length &&
        match (Assignment.ofOutput (Bound.correspondence [v]) t).row? v.slots with
        | some row => s.looksUp registry v row
        | none => s.scans registry v t) := by
  rw [accepts, read_complement, readBound_eq]
  rfl

/-- The rows that are left are those whose values at the columns come from a refused ambient row. -/
theorem complements_iff :
    (∃ ν, (∃ row ∈ (s.ambientOf registry v.relation).rows, (s.readBound v).slots.Fits ν row ∧
        (s.readBound v).relation.accepts row = false) ∧
      t = (Bound.correspondence [v]).map ν) ↔ s.Complements registry v t := by
  simp only [mem_rows_ambientOf, readBound_eq]
  rfl

theorem Valid.length_of_mem_ambientOf (hs : s.Valid) (hv : s.BuiltView v) (registry : String) :
    ∀ row ∈ (s.ambientOf registry v.relation).rows,
      (s.readBound v).slots.length = row.length := by
  intro row hrow
  rw [readBound_eq, hv.slots, hs.length_of_ambient (mem_rows_ambientOf.mp hrow)]

/-- A complement enumerates the projections of the ambient rows that its operand refuses. -/
theorem mem_rows_complement (hs : s.Valid) (hv : s.BuiltView v) :
    t ∈ (s.rows (.complement id v registry)).rows ↔ s.Complements registry v t := by
  rw [← complements_iff, rows, read_complement]
  refine Reading.mem_rows_complement (hs.length_of_mem_ambientOf hv registry) fun x hx => ?_
  simpa using Bound.mem_correspondence.mp hx

/-- Where the columns settle all slots of the operand, there is a single row to look up. -/
theorem looksUp_iff (hn : t.length = (Bound.correspondence [v]).length)
    (hrow : (Assignment.ofOutput (Bound.correspondence [v]) t).row? v.slots = some row) :
    s.looksUp registry v row = true ↔ s.Complements registry v t := by
  have hslots : (Assignment.ofOutput (Bound.correspondence [v]) t).row? (s.readBound v).slots =
      some row := by simpa using hrow
  rw [← complements_iff, ← Reading.lookup_complement_iff Bound.nodup_correspondence hn hslots,
    readBound_eq]
  rfl

/-- Otherwise some ambient row has to be found that fits. -/
theorem scans_iff (hs : s.Valid) (hv : s.BuiltView v)
    (hn : t.length = (Bound.correspondence [v]).length) :
    s.scans registry v t = true ↔ s.Complements registry v t := by
  rw [← complements_iff, ← Reading.scan_complement_iff Bound.nodup_correspondence
    (hs.length_of_mem_ambientOf hv registry) hn, readBound_eq]
  rfl

/-- A complement accepts what it enumerates, whichever of the two ways it asks. -/
theorem accepts_complement_iff (hs : s.Valid) (hv : s.BuiltView v) :
    s.accepts (.complement id v registry) t = true ↔ s.Complements registry v t := by
  rw [accepts_eq_lists rfl, hs.exact_complement hv t]
  exact mem_rows_complement hs hv

/-- Of an unbound relation, the complement holds the ambient rows that the relation rejects. -/
theorem complements_identityView (hs : s.Valid) :
    s.Complements registry r.identityView t ↔
      s.Ambient registry r t ∧ s.accepts r t = false := by
  have hcolumns := Bound.correspondence_vars (nodup_positional r.arity) r
  rw [Relation.identityView_eq, Complements, hcolumns]
  simp only [Slots.fits_vars_iff]
  constructor
  · rintro ⟨ν, ⟨row, hambient, hrow, hrejects⟩, ht⟩
    have hrt : row = t := hrow.trans ht.symm
    exact hrt ▸ ⟨hambient, hrejects⟩
  · rintro ⟨hambient, hrejects⟩
    have hlen : t.length = (Var.positional r.arity).length := by
      simpa using hs.length_of_ambient hambient
    have ht := (Assignment.within_ofOutput (nodup_positional r.arity) hlen).mp
      (Assignment.within_valuation _)
    exact ⟨_, ⟨t, hambient, ht, hrejects⟩, ht⟩

/-- Whether `r` is, over a store, the complement of a bound relation in a registry: in what it
enumerates, in what it accepts, and in the answers of both ways of testing membership, between which
a test chooses. Of an unbound relation, the complement and the accepted ambient rows make up the
ambient rows and have none in common. -/
structure IsComplement (s : Store) (registry : String) (v : View) (r : Relation) : Prop where
  rows : ∀ t, t ∈ (s.rows r).rows ↔ s.Complements registry v t
  accepts : ∀ t, s.accepts r t = true ↔ s.Complements registry v t
  test : ∀ t, s.accepts r t =
    (t.length == (Bound.correspondence [v]).length &&
      match (Assignment.ofOutput (Bound.correspondence [v]) t).row? v.slots with
      | some row => s.looksUp registry v row
      | none => s.scans registry v t)
  lookup : ∀ t row, t.length = (Bound.correspondence [v]).length →
    (Assignment.ofOutput (Bound.correspondence [v]) t).row? v.slots = some row →
    (s.looksUp registry v row = true ↔ s.Complements registry v t)
  scan : ∀ t, t.length = (Bound.correspondence [v]).length →
    (s.scans registry v t = true ↔ s.Complements registry v t)
  ambient : v = v.relation.identityView → ∀ row, s.Ambient registry v.relation row ↔
    row ∈ (s.rows r).rows ∨ s.Ambient registry v.relation row ∧ s.accepts v.relation row = true
  disjoint : v = v.relation.identityView → ∀ row,
    ¬ (row ∈ (s.rows r).rows ∧ s.accepts v.relation row = true)

/-- Any bound relation has a complement, which holds the tuples of variables of the fitting ambient
rows that the relation rejects. -/
theorem exists_isComplement (hs : s.Reachable) (hv : s.BuiltView v) (id : Nat)
    (registry : String) :
    ∃ r, Relation.derive id .complement [v] registry = .ok r ∧ s.IsComplement registry v r := by
  have hidentity : v = v.relation.identityView → ∀ row,
      row ∈ (s.rows (.complement id v registry)).rows ↔
        s.Ambient registry v.relation row ∧ s.accepts v.relation row = false := by
    intro h row
    rw [mem_rows_complement hs.valid hv, h]
    exact complements_identityView hs.valid
  refine ⟨_, rfl, ?rows, ?accepts, ?test, ?lookup, ?scan, ?ambient, ?disjoint⟩
  case rows =>
    exact fun t => mem_rows_complement hs.valid hv
  case accepts =>
    exact fun t => accepts_complement_iff hs.valid hv
  case test =>
    exact fun t => accepts_complement s id v registry t
  case lookup =>
    exact fun t row ht hrow => looksUp_iff ht hrow
  case scan =>
    exact fun t ht => scans_iff hs.valid hv ht
  case ambient =>
    intro h row
    rw [hidentity h]
    cases s.accepts v.relation row <;> simp
  case disjoint =>
    intro h row
    rw [hidentity h]
    cases s.accepts v.relation row <;> simp

theorem exists_isComplement_mutual :
    ∃ m, Session.kinship.relation "mutual" = .ok m ∧
      ∃ r, Relation.derive 6 .complement [⟨m, [.var (.named "A"), .wildcard]⟩] "main" = .ok r ∧
        Session.kinship.store.IsComplement "main" ⟨m, [.var (.named "A"), .wildcard]⟩ r := by
  have hmutual : ∃ m, Session.kinship.relation "mutual" = .ok m ∧ m.arity = 2 := ⟨_, rfl, rfl⟩
  obtain ⟨m, hm, harity⟩ := hmutual
  have hv : Session.kinship.store.BuiltView ⟨m, [.var (.named "A"), .wildcard]⟩ :=
    ⟨Session.built_kinship hm, harity.symm⟩
  exact ⟨m, hm, exists_isComplement Session.reachable_kinship hv 6 "main"⟩

end Store

end RelationAlgebra
