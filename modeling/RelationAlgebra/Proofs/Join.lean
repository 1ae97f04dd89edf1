import RelationAlgebra.Proofs.Agreement

/-!
# Intersections of stored relations

The declarative meaning of the search. An intersection of stored relations holds a tuple if one row of
every operand can be chosen such that each slot holds what its binding says, with one atom for each
variable in all operands, and the tuple lists the atoms of the output columns. Rows are stored ones;
pairs that a relation only accepts through its declared properties are never among them.
-/

namespace RelationAlgebra

/-- A bound stored relation as a view. -/
def Bound.view (o : Bound Base) : View := ⟨.base o.relation, o.slots⟩

theorem Bound.correspondence_view (operands : List (Bound Base)) :
    Bound.correspondence (operands.map Bound.view) = Bound.correspondence operands :=
  Bound.correspondence_map fun _ => rfl

/-- A choice for each element is a list of choices. -/
theorem exists_forall₂_iff {α β : Type} {P : α → β → Prop} {xs : List α} :
    (∃ ys, List.Forall₂ P xs ys) ↔ ∀ x ∈ xs, ∃ y, P x y := by
  induction xs with
  | nil => simp
  | cons x xs ih =>
    rw [List.forall_mem_cons, ← ih]
    constructor
    · rintro ⟨_, h⟩
      obtain ⟨y, ys, hy, hys, -⟩ := List.forall₂_cons_left_iff.mp h
      exact ⟨⟨y, hy⟩, ys, hys⟩
    · rintro ⟨⟨y, hy⟩, ys, hys⟩
      exact ⟨y :: ys, .cons hy hys⟩

namespace Store

variable {s : Store} {operands : List (Bound Base)} {o : Bound Base} {ν : Valuation} {t : Tuple}
  {id : Nat}

/-- Whether a row is stored for an operand and fits its bindings under a valuation. -/
def FitsRow (s : Store) (ν : Valuation) (o : Bound Base) (row : Tuple) : Prop :=
  row ∈ (s.extension o.relation).rows ∧ o.slots.Fits ν row

/-- Whether a tuple comes of a choice of one stored row for each operand: the valuation gives the
common atom of each variable, and the tuple lists these atoms for the output columns. -/
def Joins (s : Store) (operands : List (Bound Base)) (t : Tuple) : Prop :=
  ∃ (ν : Valuation) (rows : List Tuple),
    List.Forall₂ (s.FitsRow ν) operands rows ∧ t = (Bound.correspondence operands).map ν

/-- The rows of a stored operand are those in its extension that fit its slots. -/
theorem hasRow_view :
    Reading.HasRow (s.readBound o.view) ν ↔ ∃ row, s.FitsRow ν o row := by
  rw [readBound_eq]
  rfl

theorem proper_and_exact_view (hs : s.Valid) (ho : ∀ o ∈ operands, s.BuiltView o.view) :
    ∀ o ∈ (operands.map Bound.view).map s.readBound, Reading.Proper o ∧ o.relation.Exact := by
  rw [← List.forall_mem_map] at ho
  refine proper_and_exact hs ho ?_
  rw [List.forall_mem_map]
  exact fun o _ t => Extension.contains_iff

/-- An intersection of stored relations has a row for each choice of rows that agree. -/
theorem mem_rows_intersection (hs : s.Valid) (ho : ∀ o ∈ operands, s.BuiltView o.view) :
    t ∈ (s.rows (.intersection id (operands.map Bound.view))).rows ↔ s.Joins operands t := by
  rw [rows, read_intersection, Reading.mem_rows_join_of_exact (proper_and_exact_view hs ho)
    fun x hx => exists_readBound (Bound.mem_correspondence.mp hx), Bound.correspondence_view]
  refine exists_congr fun ν => ?_
  rw [List.forall_mem_map, List.forall_mem_map, exists_and_right, exists_forall₂_iff]
  simp only [hasRow_view]

theorem accepts_intersection (hs : s.Valid) (ho : ∀ o ∈ operands, s.BuiltView o.view) :
    s.accepts (.intersection id (operands.map Bound.view)) t = true ↔ s.Joins operands t := by
  rw [accepts_eq_lists rfl, exact_intersection (proper_and_exact_view hs ho) t]
  exact mem_rows_intersection hs ho

/-- Any stored relations, however bound, have an intersection. It enumerates a tuple, and equally
accepts it, if the tuple comes of a choice of one stored row for each operand. -/
theorem intersection_joins (hs : s.Reachable) (hne : operands ≠ [])
    (ho : ∀ o ∈ operands, s.BuiltView o.view) (id : Nat) (registry : String) :
    ∃ r, Relation.derive id .intersection (operands.map Bound.view) registry = .ok r ∧
      ∀ t, (t ∈ (s.rows r).rows ↔ s.Joins operands t) ∧
        (s.accepts r t = true ↔ s.Joins operands t) := by
  have hviews : operands.map Bound.view ≠ [] := by simpa using hne
  exact ⟨_, Relation.derive_intersection hviews,
    fun t => ⟨mem_rows_intersection hs.valid ho, accepts_intersection hs.valid ho⟩⟩

/-- The mothers of parents, with the child and without the grandchild. -/
def kinshipGrandmothers : List (Bound Base) :=
  [⟨Session.kinshipParent, [.var (.named "A"), .var (.named "B")]⟩,
   ⟨Session.kinshipParent, [.var (.named "B"), .wildcard]⟩,
   ⟨Session.kinshipFemale, [.var (.named "A")]⟩]

theorem intersection_joins_kinshipGrandmothers :
    ∃ r, Relation.derive 9 .intersection (kinshipGrandmothers.map Bound.view) "main" = .ok r ∧
      ∀ t, (t ∈ (Session.kinship.store.rows r).rows ↔
          Session.kinship.store.Joins kinshipGrandmothers t) ∧
        (Session.kinship.store.accepts r t = true ↔
          Session.kinship.store.Joins kinshipGrandmothers t) := by
  have hbuilt : ∀ o ∈ kinshipGrandmothers, Session.kinship.store.BuiltView o.view := by
    simp only [kinshipGrandmothers, List.forall_mem_cons]
    have hparent := Built.base Session.holds_kinshipParent
    exact ⟨⟨hparent, rfl⟩, ⟨hparent, rfl⟩, ⟨.base Session.holds_kinshipFemale, rfl⟩, by simp⟩
  exact intersection_joins Session.reachable_kinship (by simp [kinshipGrandmothers]) hbuilt 9 "main"

-- a pair that the transitivity of `parent` induces is accepted, but is no row
example :
    Session.kinship.store.accepts (.base Session.kinshipParent) [.text "teresa", .text "ania"] =
        true ∧
      Session.kinship.store.accepts
          (.intersection 9 [(Relation.base Session.kinshipParent).identityView])
          [.text "teresa", .text "ania"] = false := by decide

end Store

end RelationAlgebra
