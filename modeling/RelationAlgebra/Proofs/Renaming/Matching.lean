import Mathlib.Data.List.Basic
import RelationAlgebra.Association
import RelationAlgebra.Matching

/-!
# Matching rows of other atoms

A renaming of atoms changes the literals of bindings and the values of assignments, and leaves the
variables alone. If it is injective, a row matches bindings just if the renamed row matches the
renamed bindings, with the renamed assignment.
-/

namespace RelationAlgebra

/-- A map over a list that can fail, over renamed members. -/
theorem mapM_map_option {α β γ δ : Type} {f : α → β} {g : α → Option γ} {g' : β → Option δ}
    {h : γ → δ} (hg : ∀ a, g' (f a) = (g a).map h) (as : List α) :
    (as.map f).mapM g' = (as.mapM g).map (List.map h) := by
  induction as with
  | nil => rfl
  | cons a as ih =>
    rw [List.map_cons, List.mapM_cons, List.mapM_cons, ih, hg]
    cases g a <;> cases as.mapM g <;> rfl

variable {p : Atom → Atom}

/-! ## Bindings -/

namespace Binding

/-- The binding with another atom as its literal. -/
def rename (p : Atom → Atom) : Binding → Binding
  | var v => var v
  | wildcard => wildcard
  | literal a => literal (p a)

@[simp]
theorem var?_rename (p : Atom → Atom) (b : Binding) : (b.rename p).var? = b.var? := by
  cases b <;> rfl

@[simp]
theorem literal?_rename (p : Atom → Atom) (b : Binding) :
    (b.rename p).literal? = b.literal?.map p := by
  cases b <;> rfl

end Binding

namespace Slots

/-- The bindings with other atoms as their literals. -/
def rename (p : Atom → Atom) (slots : Slots) : Slots := slots.map (Binding.rename p)

@[simp]
theorem length_rename (p : Atom → Atom) (slots : Slots) : (slots.rename p).length = slots.length :=
  List.length_map _

@[simp]
theorem rename_cons (p : Atom → Atom) (b : Binding) (slots : Slots) :
    rename p (b :: slots) = b.rename p :: slots.rename p := rfl

/-- Identity bindings hold no atoms, so renaming leaves them alone. -/
@[simp]
theorem rename_identity (p : Atom → Atom) (n : Nat) : (identity n).rename p = identity n := by
  rw [rename, identity, List.map_map]
  rfl

/-- A literal does not become a variable, so only the identity becomes the identity. -/
@[simp]
theorem isIdentity_rename (p : Atom → Atom) (slots : Slots) :
    (slots.rename p).isIdentity = slots.isIdentity := by
  have hvar : ∀ (b : Binding) (v : Var), b.rename p = .var v ↔ b = .var v := by
    intro b v
    cases b <;> simp [Binding.rename]
  have hiff : ∀ vs : List Var, slots.rename p = vs.map .var ↔ slots = vs.map .var := by
    induction slots with
    | nil => simp [rename]
    | cons b slots ih =>
      intro vs
      cases vs with
      | nil => simp
      | cons v vs => simp [hvar, ih]
  have hidentity : identity slots.length = ((List.range slots.length).map .index).map .var := by
    rw [identity, List.map_map]
    rfl
  rw [isIdentity, isIdentity, length_rename, Bool.eq_iff_iff, beq_iff_eq, beq_iff_eq, hidentity]
  exact hiff _

/-- Slots are all literals just if the renamed ones are, and then give the renamed tuple. -/
theorem literals?_rename (p : Atom → Atom) (slots : Slots) :
    (slots.rename p).literals? = slots.literals?.map (List.map p) :=
  mapM_map_option (Binding.literal?_rename p) slots

/-- The variables of an operand are no atoms. -/
@[simp]
theorem vars_rename (p : Atom → Atom) (slots : Slots) : (slots.rename p).vars = slots.vars := by
  simp [vars, rename, List.foldl_map]

end Slots

theorem Bound.correspondence_rename {α β : Type} {f : Bound α → Bound β}
    (hf : ∀ o, (f o).slots = o.slots.rename p) (operands : List (Bound α)) :
    correspondence (operands.map f) = correspondence operands := by
  have hvars : ∀ o : Bound α, (f o).slots.filterMap Binding.var? = o.slots.filterMap Binding.var? := by
    intro o
    rw [hf, Slots.rename, List.filterMap_map]
    congr 1
    funext b
    exact Binding.var?_rename p b
  simp only [correspondence, List.flatMap_map, List.filterMap_flatMap, hvars]

/-! ## Assignments -/

namespace Assignment

variable {α : Assignment}

/-- The assignment with other atoms as its values. -/
def rename (p : Atom → Atom) (α : Assignment) : Assignment := Association.mapValues p α

@[simp]
theorem rename_nil (p : Atom → Atom) : rename p [] = [] := rfl

theorem rename_assign (p : Atom → Atom) (α : Assignment) (v : Var) (a : Atom) :
    (α.assign v a).rename p = (α.rename p).assign v (p a) := rfl

theorem get?_rename (p : Atom → Atom) (α : Assignment) (v : Var) :
    (α.rename p).get? v = (α.get? v).map p :=
  Association.lookup_mapValues p α v

/-- What an assignment gives to a renamed binding is renamed. -/
theorem slot?_rename (p : Atom → Atom) (α : Assignment) (b : Binding) :
    (α.rename p).slot? (b.rename p) = (α.slot? b).map p := by
  cases b with
  | var v => exact get?_rename p α v
  | wildcard | literal a => rfl

/-- What an assignment gives to renamed slots is the renamed row, if it settles them all. -/
theorem row?_rename (p : Atom → Atom) (α : Assignment) (slots : Slots) :
    (α.rename p).row? (slots.rename p) = (α.row? slots).map (List.map p) :=
  mapM_map_option (slot?_rename p α) slots

theorem project?_rename (p : Atom → Atom) (α : Assignment) (output : List Var) :
    (α.rename p).project? output = (α.project? output).map (List.map p) := by
  have hprojection : (output.map id).mapM (α.rename p).get? =
      (output.mapM α.get?).map (List.map p) := mapM_map_option (get?_rename p α) output
  rw [List.map_id] at hprojection
  exact hprojection

/-- Seeding the columns with a renamed tuple renames the seeded assignment. -/
theorem ofOutput_rename (p : Atom → Atom) (output : List Var) (t : Tuple) :
    ofOutput output (t.map p) = (ofOutput output t).rename p :=
  List.zip_map_right

/-- Literals and repeated variables are compared with the atoms of the row, and nothing else is. -/
theorem unify_rename (hp : Function.Injective p) (α : Assignment) (slots : Slots) (row : Tuple) :
    (α.rename p).unify (slots.rename p) (row.map p) = (α.unify slots row).map (rename p) := by
  induction slots generalizing α row with
  | nil => cases row <;> rfl
  | cons b slots ih =>
    cases row with
    | nil => cases b <;> rfl
    | cons a row =>
      rw [Slots.rename_cons, List.map_cons]
      cases b with
      | wildcard => exact ih α row
      | literal c =>
        simp only [Binding.rename, unify, hp.eq_iff]
        by_cases h : c = a
        · rw [if_pos h, if_pos h]
          exact ih α row
        · rw [if_neg h, if_neg h]
          rfl
      | var v =>
        simp only [Binding.rename, unify, get?_rename]
        cases α.get? v with
        | none =>
          rw [Option.map_none, ← rename_assign]
          exact ih (α.assign v a) row
        | some c =>
          simp only [Option.map_some, hp.eq_iff]
          by_cases h : c = a
          · rw [if_pos h, if_pos h]
            exact ih α row
          · rw [if_neg h, if_neg h]
            rfl

/-- The completions over a renamed domain are the renamed ones, in the same order. -/
theorem completions_rename (p : Atom → Atom) (domain : List Atom) (vs : List Var)
    (α : Assignment) :
    completions (domain.map p) vs (α.rename p) = (completions domain vs α).map (rename p) := by
  induction vs generalizing α with
  | nil => rfl
  | cons v vs ih =>
    rw [completions, completions, List.flatMap_map, List.map_flatMap]
    congr 1
    funext a
    rw [← rename_assign, ih]

end Assignment

end RelationAlgebra
