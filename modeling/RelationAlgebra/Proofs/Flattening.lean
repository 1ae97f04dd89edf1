import RelationAlgebra.Proofs.Arity
import RelationAlgebra.Proofs.Expression
import RelationAlgebra.Proofs.Union

/-!
# Nested intersections

An intersection whose slots are bound to its own columns has a row under a valuation just if each of
its operands has one (`Reading.hasRow_join_iff`), whatever wildcards and literals these have. So an
operand that is itself an intersection may be replaced by the operands of this intersection: its
columns are the variables of these in their order, so the columns are the same, and so are the
tuples (`Store.intersection_flattens`).
-/

namespace RelationAlgebra

namespace Bound

variable {α : Type}

theorem correspondence_append_congr {us us' ws ws' : List (Bound α)}
    (hu : correspondence us = correspondence us') (hw : correspondence ws = correspondence ws') :
    correspondence (us ++ ws) = correspondence (us' ++ ws') := by
  simp only [correspondence, List.flatMap_append, List.filterMap_append] at hu hw ⊢
  exact eraseDups_append_congr hu hw

/-- An operand that is bound to the columns of other operands brings in the same columns as these,
in the same order. -/
theorem correspondence_nested (us vs ws : List (Bound α)) (r : α) :
    correspondence (us ++ [⟨r, (correspondence vs).map .var⟩] ++ ws) =
      correspondence (us ++ vs ++ ws) :=
  have hnested : correspondence [⟨r, (correspondence vs).map .var⟩] = correspondence vs :=
    correspondence_vars nodup_correspondence r
  correspondence_append_congr (correspondence_append_congr rfl hnested) rfl

end Bound

namespace Reading

variable {output : List Var} {operands : List (Bound Reading)} {ν : Valuation}

/-- Bound to its own columns, a join has a row under a valuation just if each of its operands has
one. -/
theorem hasRow_join_iff (ho : ∀ o ∈ operands, Proper o ∧ o.relation.Exact)
    (hout : ∀ x, x ∈ output ↔ ∃ o ∈ operands, .var x ∈ o.slots) :
    HasRow ⟨join output operands, output.map .var⟩ ν ↔ ∀ o ∈ operands, HasRow o ν := by
  rw [hasRow_vars, map_mem_rows_join_iff (fun o hm => (ho o hm).1) hout,
    meetAll_iff fun o hm => (ho o hm).2]

theorem proper_join (output : List Var) (operands : List (Bound Reading)) :
    Proper ⟨join output operands, output.map .var⟩ := by
  intro row hrow
  rw [List.length_map, (ofArity_join output operands).length hrow]

end Reading

/-- The intersection of operands, each slot bound to the variable of its column. -/
def Relation.intersectionView (id : Nat) (views : List View) : View :=
  ⟨.intersection id views, (Bound.correspondence views).map .var⟩

theorem Relation.bind_intersection (id : Nat) (views : List View) :
    (Relation.intersection id views).bind ((Bound.correspondence views).map .var) =
      .ok (intersectionView id views) :=
  if_pos (List.length_map _)

namespace Store

variable {s : Store} {views views' : List View} {ν : Valuation} {id : Nat}

theorem readBound_intersectionView (s : Store) (id : Nat) (views : List View) :
    s.readBound (Relation.intersectionView id views) =
      ⟨.join (Bound.correspondence views) (views.map s.readBound),
        (Bound.correspondence views).map .var⟩ := by
  rw [Relation.intersectionView, readBound_eq, read_intersection]

theorem mem_correspondence_readBound {x : Var} :
    x ∈ Bound.correspondence views ↔ ∃ o ∈ views.map s.readBound, .var x ∈ o.slots := by
  rw [Bound.mem_correspondence]
  simp

/-- A row of a bound intersection is a row of each of its operands. -/
theorem hasRow_intersectionView
    (ho : ∀ o ∈ views.map s.readBound, Reading.Proper o ∧ o.relation.Exact) :
    Reading.HasRow (s.readBound (Relation.intersectionView id views)) ν ↔
      ∀ o ∈ views.map s.readBound, Reading.HasRow o ν := by
  rw [readBound_intersectionView,
    Reading.hasRow_join_iff ho fun _ => mem_correspondence_readBound]

/-- An intersection of proper and exact readings can itself be an operand. -/
theorem proper_and_exact_intersectionView
    (ho : ∀ o ∈ views.map s.readBound, Reading.Proper o ∧ o.relation.Exact) :
    Reading.Proper (s.readBound (Relation.intersectionView id views)) ∧
      (s.readBound (Relation.intersectionView id views)).relation.Exact := by
  have hexact : (s.read (.intersection id views)).Exact := exact_intersection ho
  rw [read_intersection] at hexact
  rw [readBound_intersectionView]
  exact ⟨Reading.proper_join _ _, hexact⟩

/-- Two intersections with the same columns have the same tuples if their operands have rows under
the same valuations. -/
theorem same_intersection
    (ho : ∀ o ∈ views.map s.readBound, Reading.Proper o ∧ o.relation.Exact)
    (ho' : ∀ o ∈ views'.map s.readBound, Reading.Proper o ∧ o.relation.Exact)
    (hcolumns : Bound.correspondence views = Bound.correspondence views')
    (hrow : ∀ ν, (∀ o ∈ views.map s.readBound, Reading.HasRow o ν) ↔
      ∀ o ∈ views'.map s.readBound, Reading.HasRow o ν) (id id' : Nat) :
    s.Same (.intersection id views) (.intersection id' views') := by
  have hrows : ∀ t, t ∈ (s.rows (.intersection id views)).rows ↔
      t ∈ (s.rows (.intersection id' views')).rows := by
    intro t
    rw [rows, rows, read_intersection, read_intersection,
      Reading.mem_rows_join_of_exact ho fun x => mem_correspondence_readBound.mp,
      Reading.mem_rows_join_of_exact ho' fun x => mem_correspondence_readBound.mp, hcolumns]
    simp only [hrow]
  intro t
  rw [accepts_eq_lists rfl, accepts_eq_lists rfl, exact_intersection ho t,
    exact_intersection ho' t]
  exact ⟨hrows t, hrows t⟩

/-- Whether an intersection with another one among its operands, bound slot by slot to the columns
of this one, comes to the same as the intersection with the operands of this one in its place: in
its arity, in its columns and in the tuples that it accepts and enumerates. -/
def Flattens (s : Store) (registry : String) (us vs ws : List View) : Prop :=
  ∀ id id' id'', ∃ inner v nested flat,
    Relation.derive id .intersection vs registry = .ok inner ∧
    inner.bind ((Bound.correspondence vs).map .var) = .ok v ∧
    Relation.derive id' .intersection (us ++ [v] ++ ws) registry = .ok nested ∧
    Relation.derive id'' .intersection (us ++ vs ++ ws) registry = .ok flat ∧
    nested.arity = flat.arity ∧
    Bound.correspondence (us ++ [v] ++ ws) = Bound.correspondence (us ++ vs ++ ws) ∧
    s.Same nested flat

/-- Operands that list their rows and nothing else may be taken together to an intersection. -/
theorem flattens_of_exact {us vs ws : List View} (hne : vs ≠ [])
    (ho : ∀ o ∈ (us ++ vs ++ ws).map s.readBound, Reading.Proper o ∧ o.relation.Exact)
    (registry : String) : s.Flattens registry us vs ws := by
  intro id id' id''
  have hcolumns : Bound.correspondence (us ++ [Relation.intersectionView id vs] ++ ws) =
      Bound.correspondence (us ++ vs ++ ws) := Bound.correspondence_nested us vs ws _
  refine ⟨_, _, _, _, Relation.derive_intersection hne, Relation.bind_intersection id vs,
    Relation.derive_intersection (by simp), Relation.derive_intersection (by simp [hne]),
    congrArg List.length hcolumns, hcolumns, ?_⟩
  have hparts := ho
  simp only [List.map_append, List.forall_mem_append] at hparts
  obtain ⟨⟨hu, hv⟩, hw⟩ := hparts
  refine same_intersection ?nested ho hcolumns (fun ν => ?rows) id' id''
  case nested =>
    simp only [List.map_append, List.forall_mem_append, List.map_singleton,
      List.forall_mem_singleton]
    exact ⟨⟨hu, proper_and_exact_intersectionView hv⟩, hw⟩
  case rows =>
    simp only [List.map_append, List.forall_mem_append, List.map_singleton,
      List.forall_mem_singleton, hasRow_intersectionView hv]

/-- Among the operands of an intersection, the intersection of some stored relations, however bound,
stands for these. -/
theorem intersection_flattens {us vs ws : List (Bound Base)} (hs : s.Reachable) (hne : vs ≠ [])
    (ho : ∀ o ∈ us ++ vs ++ ws, s.BuiltView o.view) (registry : String) :
    s.Flattens registry (us.map Bound.view) (vs.map Bound.view) (ws.map Bound.view) := by
  refine flattens_of_exact (by simpa using hne) ?_ registry
  rw [← List.map_append, ← List.map_append]
  exact proper_and_exact_view hs.valid ho

theorem intersection_flattens_kinship :
    Session.kinship.store.Flattens "main" (kinshipKnown.map Bound.view)
      (kinshipGrandmothers.map Bound.view) (kinshipKnown.map Bound.view) := by
  have hgrandmothers : ∀ o ∈ kinshipGrandmothers, Session.kinship.store.BuiltView o.view := by
    simp only [kinshipGrandmothers, List.forall_mem_cons]
    have hparent := Built.base Session.holds_kinshipParent
    exact ⟨⟨hparent, rfl⟩, ⟨hparent, rfl⟩, ⟨.base Session.holds_kinshipFemale, rfl⟩, by simp⟩
  have hbuilt : ∀ o ∈ kinshipKnown ++ kinshipGrandmothers ++ kinshipKnown,
      Session.kinship.store.BuiltView o.view := by
    simp only [List.forall_mem_append]
    exact ⟨⟨builtView_kinshipKnown, hgrandmothers⟩, builtView_kinshipKnown⟩
  exact intersection_flattens Session.reachable_kinship (by simp [kinshipGrandmothers]) hbuilt
    "main"

-- an intersection without columns lets either all rows of the other operands through or none
example :
    (Session.kinship.store.rows (.intersection 9
      [⟨.base Session.kinshipFemale, [.var (.named "A")]⟩,
       Relation.intersectionView 8
        [⟨.base Session.kinshipParent, [.literal (.text "teresa"), .wildcard]⟩]])).rows =
      (Session.kinship.store.rows (.base Session.kinshipFemale)).rows := by decide

end Store

end RelationAlgebra
