import RelationAlgebra.Derivation
import RelationAlgebra.Inspection
import RelationAlgebra.Proofs.Renaming.Extension
import RelationAlgebra.Proofs.Renaming.Matching

/-!
# Relations with other literals

The only atoms in a relation are the literals of its operands, at any depth. They are no part of its
number, its name, its arity or its output columns. So a combinator takes renamed operands just if it
takes the original ones, and a refusal differs at most in how it shows an operand.
-/

namespace RelationAlgebra

variable {p : Atom → Atom}

namespace Relation

/-! ## Renaming -/

mutual

/-- The relation with other atoms as the literals in it, at any depth. -/
def rename (p : Atom → Atom) : Relation → Relation
  | base b => base b
  | union id operands => union id (renameAll p operands)
  | intersection id operands => intersection id (renameAll p operands)
  | complement id operand registry => complement id (renameOperand p operand) registry
  | composition id first second => composition id (first.rename p) (second.rename p)
  | converse id relation => converse id (relation.rename p)

/-- An operand with other atoms as the literals in it. -/
def renameOperand (p : Atom → Atom) : Bound Relation → Bound Relation
  | ⟨relation, slots⟩ => ⟨relation.rename p, slots.rename p⟩

/-- Operands with other atoms as the literals in them. -/
def renameAll (p : Atom → Atom) : List (Bound Relation) → List (Bound Relation)
  | [] => []
  | operand :: operands => renameOperand p operand :: renameAll p operands

end

end Relation

/-- The bound relation with other atoms as the literals in it. -/
def View.rename (p : Atom → Atom) (v : View) : View := ⟨v.relation.rename p, v.slots.rename p⟩

namespace Relation

variable {id : Nat} {registry : String}

@[simp]
theorem renameOperand_eq (p : Atom → Atom) (v : View) : renameOperand p v = v.rename p := by
  cases v
  rw [renameOperand, View.rename]

@[simp]
theorem renameAll_eq_map (p : Atom → Atom) (views : List View) :
    renameAll p views = views.map (View.rename p) := by
  induction views with
  | nil => rfl
  | cons v views ih => rw [renameAll, renameOperand_eq, ih, List.map_cons]

@[simp]
theorem id_rename (p : Atom → Atom) (r : Relation) : (r.rename p).id = r.id := by
  cases r <;> rw [rename] <;> rfl

@[simp]
theorem isDerived_rename (p : Atom → Atom) (r : Relation) :
    (r.rename p).isDerived = r.isDerived := by
  cases r <;> rw [rename] <;> rfl

/-- Renaming keeps which relations are one and the same. -/
theorem same_rename (p : Atom → Atom) (q r : Relation) :
    (q.rename p).same (r.rename p) = q.same r := by
  rw [same, same, id_rename, id_rename]

/-- The output columns of operands are labelled by variables, never by atoms. -/
theorem correspondence_rename (p : Atom → Atom) (views : List View) :
    Bound.correspondence (views.map (View.rename p)) = Bound.correspondence views :=
  Bound.correspondence_rename (fun _ => rfl) views

theorem columns_rename (p : Atom → Atom) (v : View) :
    Bound.correspondence [v.rename p] = Bound.correspondence [v] :=
  correspondence_rename p [v]

/-- Renaming keeps the number of output columns. -/
@[simp]
theorem arity_rename (p : Atom → Atom) (r : Relation) : (r.rename p).arity = r.arity := by
  cases r with
  | base | composition | converse => simp only [rename, arity]
  | union | intersection =>
    simp only [rename, renameAll_eq_map, arity, correspondence_rename]
  | complement => simp only [rename, renameOperand_eq, arity, columns_rename]

theorem operandName_eq (v : View) : operandName v = v.relation.name := by
  cases v
  rw [operandName]

/-- The name of a derived relation is put together from names alone, not from literals. -/
@[simp]
theorem name_rename (p : Atom → Atom) (r : Relation) : (r.rename p).name = r.name := by
  have hnames : ∀ views : List View, (∀ v ∈ views, (v.relation.rename p).name = v.relation.name) →
      operandNames (views.map (View.rename p)) = operandNames views := by
    intro views ih
    rw [operandNames_eq_map, operandNames_eq_map, List.map_map]
    refine List.map_congr_left fun v hv => ?_
    rw [Function.comp, operandName_eq, operandName_eq]
    exact ih v hv
  induction r using induction with
  | base b => rw [rename]
  | union id views ih => simp only [rename, renameAll_eq_map, name, hnames views ih]
  | intersection id views ih => simp only [rename, renameAll_eq_map, name, hnames views ih]
  | complement id v registry ih =>
    rw [rename, renameOperand_eq, name, name, operandName_eq, operandName_eq, View.rename, ih]
  | composition id first second ih₁ ih₂ => rw [rename, name, name, ih₁, ih₂]
  | converse id relation ih => rw [rename, name, name, ih]

/-- What a relation shows of itself holds no atoms. -/
theorem inspect_rename (p : Atom → Atom) (r : Relation) : (r.rename p).inspect = r.inspect := by
  unfold inspect
  simp only [name_rename, arity_rename, isDerived_rename]

/-- An unbound operand stays unbound. -/
theorem identityView_rename (p : Atom → Atom) (r : Relation) :
    (r.rename p).identityView = r.identityView.rename p := by
  rw [identityView, identityView, View.rename, arity_rename, Slots.rename_identity]

/-! ## Construction -/

/-- Bindings are counted, so that renamed ones fit just if the original ones do. -/
theorem bind_rename (p : Atom → Atom) (r : Relation) (slots : Slots) :
    Parallel (RelationError.Alike p) (View.rename p) (r.bind slots)
      ((r.rename p).bind (slots.rename p)) := by
  rw [bind, bind, Slots.length_rename, arity_rename, name_rename]
  by_cases h : slots.length = r.arity
  · rw [if_pos h, if_pos h]
    exact .ok _
  · rw [if_neg h, if_neg h]
    exact .error rfl

/-- An operand is a plain binary relation just if the renamed one is. -/
theorem binaryOperand_rename (p : Atom → Atom) (combinator : Combinator) (v : View) :
    Parallel (RelationError.Alike p) (rename p) (binaryOperand combinator v)
      (binaryOperand combinator (v.rename p)) := by
  unfold binaryOperand
  rw [View.rename, arity_rename, name_rename, Slots.isIdentity_rename]
  by_cases harity : v.relation.arity ≠ 2
  · rw [if_pos harity, if_pos harity]
    exact .error rfl
  · rw [if_neg harity, if_neg harity]
    cases v.slots.isIdentity with
    | true => exact .ok _
    | false => exact .error rfl

theorem alike_count (p : Atom → Atom) (combinator : Combinator) (expected : Nat)
    (views : List View) :
    RelationError.Alike p (.unsupportedCombinator combinator (.count expected views.length))
      (.unsupportedCombinator combinator
        (.count expected (views.map (View.rename p)).length)) := by
  rw [List.length_map]
  rfl

/-- A combinator takes renamed operands just if it takes the original ones. -/
theorem derive_rename (p : Atom → Atom) (id : Nat) (combinator : Combinator) (views : List View)
    (registry : String) :
    Parallel (RelationError.Alike p) (rename p) (derive id combinator views registry)
      (derive id combinator (views.map (View.rename p)) registry) := by
  cases combinator with
  | union =>
    cases views with
    | nil => exact .error rfl
    | cons v views => exact .of_eq (by rw [rename, renameAll_eq_map])
  | intersection =>
    cases views with
    | nil => exact .error rfl
    | cons v views => exact .of_eq (by rw [rename, renameAll_eq_map])
  | complement =>
    match views with
    | [] => exact .error rfl
    | [v] => exact .of_eq (by rw [rename, renameOperand_eq])
    | v :: w :: views => exact .error (alike_count p .complement 1 (v :: w :: views))
  | composition =>
    match views with
    | [] | [_] => exact .error rfl
    | [v, w] =>
      refine (binaryOperand_rename p .composition v).bind fun first => ?_
      refine (binaryOperand_rename p .composition w).bind fun second => ?_
      exact .of_eq (by rw [rename])
    | v :: w :: u :: views => exact .error (alike_count p .composition 2 (v :: w :: u :: views))
  | converse =>
    match views with
    | [] => exact .error rfl
    | [v] =>
      refine (binaryOperand_rename p .converse v).bind fun relation => ?_
      exact .of_eq (by rw [rename])
    | v :: w :: views => exact .error (alike_count p .converse 1 (v :: w :: views))

end Relation

end RelationAlgebra
