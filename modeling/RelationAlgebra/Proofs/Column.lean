import RelationAlgebra.Proofs.Agreement

/-!
# Output columns

The output columns of a derived relation are collected from the slots of all its operands together.
To find out which columns an operand leaves to the active domain, a union collects the variables of
this operand besides, in a way of its own. Both collect the variables that some slot carries, each
once and in the order of their first slots, so what is left to the active domain are the columns
that no slot of the operand carries (`Bound.correspondence_collects`).
-/

namespace RelationAlgebra

namespace Slots

variable {slots : Slots} {output : List Var} {v w : Var}

/-- A variable that comes first among the variables comes first among all slots. -/
theorem idxOf_var_lt (h : (slots.filterMap Binding.var?).idxOf v <
    (slots.filterMap Binding.var?).idxOf w) : slots.idxOf (.var v) < slots.idxOf (.var w) := by
  induction slots with
  | nil => simp at h
  | cons b slots ih =>
    cases b with
    | var u =>
      have hne : ∀ {y}, u ≠ y → (Binding.var u == .var y) = false := fun hy => by simpa using hy
      rw [List.filterMap_cons_some (rfl : (Binding.var u).var? = some u)] at h
      simp only [List.idxOf_cons] at h ⊢
      by_cases hw : u = w
      · simp [hw] at h
      · by_cases hv : u = v
        · subst hv
          simp [hne hw]
        · simp only [beq_false_of_ne hv, beq_false_of_ne hw, cond_false,
            Nat.add_lt_add_iff_right] at h
          simpa [hne hv, hne hw] using ih h
    | wildcard | literal =>
      rw [List.filterMap_cons_none rfl] at h
      simpa [List.idxOf_cons] using ih h

/-- The output columns that no slot carries. -/
def unmentioned (slots : Slots) (output : List Var) : List Var :=
  output.filter fun v => .var v ∉ slots

theorem mem_unmentioned : v ∈ slots.unmentioned output ↔ v ∈ output ∧ .var v ∉ slots := by
  simp [unmentioned]

theorem filter_vars_eq_unmentioned (slots : Slots) (output : List Var) :
    (output.filter fun v => !slots.vars.contains v) = slots.unmentioned output :=
  List.filter_congr fun v _ => by simp [mem_vars]

/-- The variables of an operand, and the output columns that it does not mention, are all output
columns. -/
theorem perm_vars_append_unmentioned (hn : output.Nodup) (h : ∀ v, .var v ∈ slots → v ∈ output) :
    (slots.vars ++ slots.unmentioned output).Perm output := by
  have hnodup : (slots.vars ++ slots.unmentioned output).Nodup := by
    refine List.nodup_append.mpr ⟨nodup_vars slots, hn.filter _, fun v hv w hw => ?_⟩
    rintro rfl
    exact (mem_unmentioned.mp hw).2 (mem_vars.mp hv)
  rw [List.perm_ext_iff_of_nodup hnodup hn]
  intro v
  rw [List.mem_append, mem_vars, mem_unmentioned]
  by_cases hv : .var v ∈ slots
  · simp [hv, h v hv]
  · simp [hv]

end Slots

namespace Bound

variable {α : Type}

/-- Further operands add the columns behind those that are there. -/
theorem correspondence_append (us vs : List (Bound α)) :
    correspondence (us ++ vs) =
      correspondence us ++ (correspondence vs).filter fun v => v ∉ correspondence us := by
  rw [correspondence, List.flatMap_append, List.filterMap_append, List.eraseDups_append,
    List.removeAll, eraseDups_filter]
  refine congrArg (correspondence us ++ ·) (List.filter_congr fun v _ => ?_)
  rw [Bool.eq_iff_iff, Bool.not_eq_true', ← Bool.not_eq_true, List.elem_iff, decide_eq_true_iff,
    correspondence, List.mem_eraseDups]

theorem pairwise_correspondence_slots (us : List (Bound α)) :
    (correspondence us).Pairwise fun v w =>
      (us.flatMap Bound.slots).idxOf (.var v) < (us.flatMap Bound.slots).idxOf (.var w) :=
  pairwise_correspondence.imp Slots.idxOf_var_lt

end Bound

namespace Reading

/-- The extension with the rows of one operand pushed, where the listed variables range over a
domain. -/
def emitOver (output missing : List Var) (domain : List Atom) (x : Extension)
    (operand : Bound Reading) : Extension :=
  (solutions [operand] []).foldl
    (fun x α => (Assignment.completions domain missing α).foldl (emit output) x) x

/-- What a union lets range over its domain are the columns that no slot of the operand carries. -/
theorem emitOperand_eq_emitOver (output : List Var) (domain : List Atom) (x : Extension)
    (operand : Bound Reading) :
    emitOperand output domain x operand =
      emitOver output (operand.slots.unmentioned output) domain x operand := by
  rw [emitOperand_eq, Slots.filter_vars_eq_unmentioned, emitOver]

end Reading

theorem Store.rows_union (s : Store) (id : Nat) (views : List View) :
    s.rows (.union id views) =
      views.foldl
        (fun x o => Reading.emitOver (Bound.correspondence views)
          (o.slots.unmentioned (Bound.correspondence views))
          (Reading.activeDomain (views.map s.readBound)) x (s.readBound o))
        (.empty (Bound.correspondence views).length) := by
  have hrows : s.rows (.union id views) =
      (views.map s.readBound).foldl
        (Reading.emitOperand (Bound.correspondence views)
          (Reading.activeDomain (views.map s.readBound)))
        (.empty (Bound.correspondence views).length) := by
    rw [rows, read_union]
    rfl
  rw [hrows, List.foldl_map]
  simp only [Reading.emitOperand_eq_emitOver, readBound_eq]

namespace Bound

/-- The output columns of operands are the variables that some slot carries, each once and in the
order of their first slots; they are the variables of all slots taken together. Further operands add
the columns that were not there, behind them. So what a union lets range over the active domain, for
one of its operands, are the columns that no slot of the operand carries, and these make up all
columns with the variables of the operand. -/
theorem correspondence_collects (us vs : List View) :
    (correspondence us).Nodup ∧
      (∀ v, v ∈ correspondence us ↔ ∃ o ∈ us, .var v ∈ o.slots) ∧
      ((correspondence us).Pairwise fun v w =>
        (us.flatMap Bound.slots).idxOf (.var v) < (us.flatMap Bound.slots).idxOf (.var w)) ∧
      correspondence us = Slots.vars (us.flatMap Bound.slots) ∧
      correspondence (us ++ vs) =
        correspondence us ++ (correspondence vs).filter (fun v => v ∉ correspondence us) ∧
      (∀ o ∈ us,
        (o.slots.vars ++ o.slots.unmentioned (correspondence us)).Perm (correspondence us)) ∧
      ∀ (s : Store) (id : Nat),
        s.rows (.union id us) =
          us.foldl
            (fun x o => Reading.emitOver (correspondence us)
              (o.slots.unmentioned (correspondence us))
              (Reading.activeDomain (us.map s.readBound)) x (s.readBound o))
            (.empty (correspondence us).length) := by
  refine ⟨nodup_correspondence, fun v => mem_correspondence, pairwise_correspondence_slots us,
    correspondence_eq_vars us, correspondence_append us vs, fun o ho => ?_,
    fun s id => s.rows_union id us⟩
  exact Slots.perm_vars_append_unmentioned nodup_correspondence fun v hv =>
    mem_correspondence.mpr ⟨o, ho, hv⟩

/-- An operand with a repeated variable between two others, the first of which has a wildcard. It
leaves the column of the first one open. -/
theorem correspondence_collects_kinship :
    let parent : View := ⟨.base Session.kinshipParent, [.var (.named "B"), .wildcard]⟩
    let own : View := ⟨.base Session.kinshipParent, [.var (.named "A"), .var (.named "A")]⟩
    let woman : View := ⟨.base Session.kinshipFemale, [.var (.named "A")]⟩
    let other : View := ⟨.base Session.kinshipFemale, [.var (.named "C")]⟩
    correspondence [parent, own, woman] = [.named "B", .named "A"] ∧
      correspondence ([parent, own, woman] ++ [other, parent]) =
        [.named "B", .named "A", .named "C"] ∧
      own.slots.unmentioned [.named "B", .named "A"] = [.named "B"] ∧
      (own.slots.vars ++ [Var.named "B"]).Perm [.named "B", .named "A"] := by
  intro parent own woman other
  obtain ⟨-, -, -, -, happend, hperm, -⟩ :=
    correspondence_collects [parent, own, woman] [other, parent]
  exact ⟨by decide, happend.trans (by decide), by decide, hperm own (by simp)⟩

end Bound

end RelationAlgebra
