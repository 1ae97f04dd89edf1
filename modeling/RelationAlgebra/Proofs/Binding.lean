import RelationAlgebra.Binding
import RelationAlgebra.Proofs.Distinct

/-!
# Variables of slots and of operands

The two ways of collecting variables, of one operand and of several, come to the same: the distinct
variables that some slot carries, in the order of their first slots. Output columns never repeat.
-/

namespace RelationAlgebra

theorem Binding.var?_eq_some_iff {b : Binding} {v : Var} : b.var? = some v ↔ b = .var v := by
  cases b <;> simp [var?]

theorem Binding.filterMap_var?_map_var (vs : List Var) :
    (vs.map Binding.var).filterMap Binding.var? = vs := by
  rw [List.filterMap_map]
  exact List.filterMap_some

namespace Slots

variable {slots : Slots} {v : Var}

/-- The variables of one operand, collected slot by slot, are its distinct variables in the order of
their first slots. -/
theorem vars_eq_eraseDups (slots : Slots) :
    slots.vars = (slots.filterMap Binding.var?).eraseDups := by
  induction slots using List.reverseRecOn with
  | nil => rfl
  | append_singleton slots b ih =>
    have hconcat : Slots.vars (slots ++ [b]) =
        (b.var?.map (addVariable (Slots.vars slots))).getD (Slots.vars slots) := by simp [vars]
    rw [hconcat, List.filterMap_append, ih]
    cases b with
    | var v =>
      rw [List.filterMap_cons_some (rfl : (Binding.var v).var? = some v), List.filterMap_nil,
        eraseDups_concat]
      simp [Binding.var?, addVariable]
    | wildcard | literal =>
      rw [List.filterMap_cons_none rfl, List.filterMap_nil, List.append_nil]
      rfl

theorem mem_vars : v ∈ slots.vars ↔ .var v ∈ slots := by
  simp [vars_eq_eraseDups, Binding.var?_eq_some_iff]

theorem nodup_vars (slots : Slots) : slots.vars.Nodup :=
  vars_eq_eraseDups slots ▸ nodup_eraseDups _

/-- The variables of slots that are bound otherwise, where some of them cease to be variables and
all others stay as they are. -/
theorem vars_map {f : Binding → Binding} {p : Var → Bool}
    (hf : ∀ b : Binding, (f b).var? = b.var?.filter p) (slots : Slots) :
    Slots.vars (slots.map f) = slots.vars.filter p := by
  rw [vars_eq_eraseDups, vars_eq_eraseDups, ← eraseDups_filter, List.filterMap_map,
    List.filter_filterMap]
  exact congrArg List.eraseDups (List.filterMap_congr fun b _ => hf b)

end Slots

namespace Bound

variable {α : Type} {operands : List (Bound α)}

/-- The output columns are the variables of all slots, operand by operand. -/
theorem correspondence_eq_vars (operands : List (Bound α)) :
    correspondence operands = Slots.vars (operands.flatMap Bound.slots) :=
  (Slots.vars_eq_eraseDups _).symm

/-- The output columns are the variables that some slot of some operand carries. -/
theorem mem_correspondence {v : Var} :
    v ∈ correspondence operands ↔ ∃ o ∈ operands, .var v ∈ o.slots := by
  rw [correspondence_eq_vars, Slots.mem_vars, List.mem_flatMap]

theorem nodup_correspondence : (correspondence operands).Nodup := nodup_eraseDups _

/-- The output columns come in the order of their first slots, operand by operand. -/
theorem pairwise_correspondence :
    (correspondence operands).Pairwise fun v w =>
      ((operands.flatMap Bound.slots).filterMap Binding.var?).idxOf v <
        ((operands.flatMap Bound.slots).filterMap Binding.var?).idxOf w :=
  pairwise_eraseDups _

/-- The output columns of an operand with a variable of its own in every slot. -/
theorem correspondence_vars {vs : List Var} (hn : vs.Nodup) (r : α) :
    correspondence [⟨r, vs.map .var⟩] = vs := by
  rw [correspondence, List.flatMap_singleton, Binding.filterMap_var?_map_var,
    eraseDups_eq_self hn]

/-- The columns do not depend on what the slots are bound to. -/
theorem correspondence_map {β : Type} {f : Bound α → Bound β} (hf : ∀ o, (f o).slots = o.slots) :
    correspondence (operands.map f) = correspondence operands := by
  simp only [correspondence, List.flatMap_map, hf]

end Bound

end RelationAlgebra
