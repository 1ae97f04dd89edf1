import Mathlib.Data.Fintype.EquivFin
import RelationAlgebra.Proofs.Join

/-!
# Unions of stored relations

A union of stored relations accepts a tuple if a row of some operand fits, whatever the tuple has in
the columns that this operand leaves open. Of these tuples it enumerates those over the active domain,
the atoms in the rows of all operands: each row of an operand is completed by all atoms of this domain
in the open columns (`Store.union_enumerates_iff`). There are always other atoms, so the two agree only
where no operand with a fitting row leaves a column open.
-/

namespace RelationAlgebra

instance : Infinite Atom := Infinite.of_injective Atom.text fun _ _ => Atom.text.inj

theorem Atom.exists_not_mem (atoms : List Atom) : ∃ a, a ∉ atoms := by
  obtain ⟨a, ha⟩ := Infinite.exists_notMem_finset atoms.toFinset
  exact ⟨a, by simpa using ha⟩

namespace Store

variable {s : Store} {operands : List (Bound Base)} {o : Bound Base} {ν : Valuation} {t : Tuple}
  {id : Nat} {a : Atom}

/-- Whether an atom is in some stored row of some operand. -/
def Occurs (s : Store) (operands : List (Bound Base)) (a : Atom) : Prop :=
  ∃ o ∈ operands, ∃ row ∈ (s.extension o.relation).rows, a ∈ row

theorem mem_activeDomain_view :
    a ∈ Reading.activeDomain ((operands.map Bound.view).map s.readBound) ↔
      s.Occurs operands a := by
  simp only [Reading.mem_activeDomain, List.mem_map, exists_exists_and_eq_and, readBound_eq]
  rfl

theorem FitsRow.occurs {row : Tuple} {x : Var} (h : s.FitsRow ν o row) (ho : o ∈ operands)
    (hx : .var x ∈ o.slots) : s.Occurs operands (ν x) :=
  ⟨o, ho, row, h.1, h.2.mem_of_var hx⟩

/-- A union accepts what fits a row of one operand, whatever the columns are that this operand
lacks. -/
theorem accepts_union (hs : s.Valid) (ho : ∀ o ∈ operands, s.BuiltView o.view) :
    s.accepts (.union id (operands.map Bound.view)) t = true ↔
      ∃ o ∈ operands, ∃ ν, (∃ row, s.FitsRow ν o row) ∧
        t = (Bound.correspondence operands).map ν := by
  rw [accepts_eq_lists rfl, read_union, Reading.lists_union_of_exact Bound.nodup_correspondence
    (proper_and_exact_view hs ho), Bound.correspondence_view]
  simp only [List.mem_map, exists_exists_and_eq_and, hasRow_view]

/-- A union enumerates what fits a row of one operand, with atoms that occur in the columns that
this operand lacks. -/
theorem mem_rows_union (hs : s.Valid) (ho : ∀ o ∈ operands, s.BuiltView o.view) :
    t ∈ (s.rows (.union id (operands.map Bound.view))).rows ↔
      ∃ o ∈ operands, ∃ ν, (∃ row, s.FitsRow ν o row) ∧
        (∀ x ∈ Bound.correspondence operands, .var x ∉ o.slots → s.Occurs operands (ν x)) ∧
        t = (Bound.correspondence operands).map ν := by
  rw [rows, read_union, Reading.mem_rows_union_of_exact Bound.nodup_correspondence
    (proper_and_exact_view hs ho), Bound.correspondence_view]
  simp only [List.mem_map, exists_exists_and_eq_and, hasRow_view, mem_activeDomain_view]
  simp only [readBound_eq]
  rfl

/-- Of the accepted tuples, a union enumerates those over the active domain. -/
theorem mem_rows_union_iff_accepts (hs : s.Valid) (ho : ∀ o ∈ operands, s.BuiltView o.view) :
    t ∈ (s.rows (.union id (operands.map Bound.view))).rows ↔
      s.accepts (.union id (operands.map Bound.view)) t = true ∧
        ∀ a ∈ t, s.Occurs operands a := by
  rw [mem_rows_union hs ho, accepts_union hs ho]
  constructor
  · rintro ⟨o, hm, ν, ⟨row, hrow⟩, hdomain, rfl⟩
    refine ⟨⟨o, hm, ν, ⟨row, hrow⟩, rfl⟩, ?_⟩
    rw [List.forall_mem_map]
    intro x hx
    by_cases hslot : .var x ∈ o.slots
    · exact hrow.occurs hm hslot
    · exact hdomain x hx hslot
  · rintro ⟨⟨o, hm, ν, hrow, rfl⟩, hoccurs⟩
    rw [List.forall_mem_map] at hoccurs
    exact ⟨o, hm, ν, hrow, fun x hx _ => hoccurs x hx, rfl⟩

/-- An operand with a fitting row that leaves a column open lets the union accept a tuple with an
atom of no row in this column. -/
theorem exists_accepts_not_occurs (hs : s.Valid) (ho : ∀ o ∈ operands, s.BuiltView o.view)
    (hm : o ∈ operands) {row : Tuple} (hrow : s.FitsRow ν o row) {x : Var}
    (hx : x ∈ Bound.correspondence operands) (hslot : .var x ∉ o.slots) (id : Nat) :
    ∃ t, s.accepts (.union id (operands.map Bound.view)) t = true ∧
      ∃ a ∈ t, ¬ s.Occurs operands a := by
  obtain ⟨a, ha⟩ := Atom.exists_not_mem
    (Reading.activeDomain ((operands.map Bound.view).map s.readBound))
  rw [mem_activeDomain_view] at ha
  -- the row still fits when the open column has another atom
  have hfit : s.FitsRow (Function.update ν x a) o row := by
    refine ⟨hrow.1, hrow.2.congr fun y hy => ?_⟩
    have hne : y ≠ x := fun e => hslot (e ▸ hy)
    rw [Function.update_of_ne hne]
  refine ⟨_, (accepts_union hs ho).mpr ⟨o, hm, _, ⟨row, hfit⟩, rfl⟩, a, ?_, ha⟩
  exact List.mem_map.mpr ⟨x, hx, Function.update_self x a ν⟩

/-- Any stored relations, however bound, have a union. It enumerates all that it accepts exactly if
every operand with a fitting row mentions all output columns. The tuples that it accepts and does
not enumerate are those with an atom that is in no row of any operand. -/
theorem union_agrees_iff (hs : s.Reachable) (hne : operands ≠ [])
    (ho : ∀ o ∈ operands, s.BuiltView o.view) (id : Nat) (registry : String) :
    ∃ r, Relation.derive id .union (operands.map Bound.view) registry = .ok r ∧
      ((∀ t, s.accepts r t = true → t ∈ (s.rows r).rows) ↔
        ∀ o ∈ operands, (∃ ν row, s.FitsRow ν o row) →
          ∀ x ∈ Bound.correspondence operands, .var x ∈ o.slots) ∧
      ∀ t, s.accepts r t = true →
        (t ∉ (s.rows r).rows ↔ ∃ a ∈ t, ¬ s.Occurs operands a) := by
  have hviews : operands.map Bound.view ≠ [] := by simpa using hne
  have hiff : ∀ t, s.accepts (.union id (operands.map Bound.view)) t = true →
      (t ∉ (s.rows (.union id (operands.map Bound.view))).rows ↔
        ∃ a ∈ t, ¬ s.Occurs operands a) := by
    intro t ht
    rw [mem_rows_union_iff_accepts hs.valid ho, and_iff_right ht]
    push Not
    rfl
  refine ⟨_, Relation.derive_union hviews, ⟨fun hagree o hm => ?_, fun hcover t ht => ?_⟩, hiff⟩
  · rintro ⟨ν, row, hrow⟩ x hx
    by_contra hslot
    obtain ⟨t, ht, hfresh⟩ := exists_accepts_not_occurs hs.valid ho hm hrow hx hslot id
    exact (hiff t ht).mpr hfresh (hagree t ht)
  · obtain ⟨o, hm, ν, ⟨row, hrow⟩, rfl⟩ := (accepts_union hs.valid ho).mp ht
    refine (mem_rows_union hs.valid ho).mpr ⟨o, hm, ν, ⟨row, hrow⟩, fun x hx hslot => ?_, rfl⟩
    exact absurd (hcover o hm ⟨ν, row, hrow⟩ x hx) hslot

/-- The parents of somebody, and the women beside anybody. -/
def kinshipKnown : List (Bound Base) :=
  [⟨Session.kinshipParent, [.var (.named "A"), .var (.named "B")]⟩,
   ⟨Session.kinshipFemale, [.var (.named "A")]⟩]

theorem builtView_kinshipKnown :
    ∀ o ∈ kinshipKnown, Session.kinship.store.BuiltView o.view := by
  simp only [kinshipKnown, List.forall_mem_cons]
  exact ⟨⟨.base Session.holds_kinshipParent, rfl⟩, ⟨.base Session.holds_kinshipFemale, rfl⟩,
    by simp⟩

theorem union_agrees_iff_kinshipKnown :
    ∃ r, Relation.derive 9 .union (kinshipKnown.map Bound.view) "main" = .ok r ∧
      ((∀ t, Session.kinship.store.accepts r t = true →
          t ∈ (Session.kinship.store.rows r).rows) ↔
        ∀ o ∈ kinshipKnown, (∃ ν row, Session.kinship.store.FitsRow ν o row) →
          ∀ x ∈ Bound.correspondence kinshipKnown, .var x ∈ o.slots) ∧
      ∀ t, Session.kinship.store.accepts r t = true →
        (t ∉ (Session.kinship.store.rows r).rows ↔
          ∃ a ∈ t, ¬ Session.kinship.store.Occurs kinshipKnown a) :=
  union_agrees_iff Session.reachable_kinship (by simp [kinshipKnown]) builtView_kinshipKnown 9 "main"

/-- A union does not always enumerate what it accepts. -/
theorem not_forall_union_agrees :
    ¬ ∀ (s : Store) (operands : List (Bound Base)) (id : Nat) (registry : String) (r : Relation)
      (t : Tuple), s.Reachable → operands ≠ [] → (∀ o ∈ operands, s.BuiltView o.view) →
      Relation.derive id .union (operands.map Bound.view) registry = .ok r →
      s.accepts r t = true → t ∈ (s.rows r).rows := by
  intro h
  have hrow := h Session.kinship.store kinshipKnown 9 "main" _ [.text "ania", .text "nobody"]
    Session.reachable_kinship (by simp [kinshipKnown]) builtView_kinshipKnown rfl (by decide)
  revert hrow
  decide

/-! ## Enumerated rows -/

/-- Whether a tuple completes a stored row of an operand: it lists what the row holds for the
variables of the operand, and atoms of the active domain in the columns that the operand leaves
open. -/
def Completes (s : Store) (operands : List (Bound Base)) (o : Bound Base) (row t : Tuple) : Prop :=
  ∃ ν, s.FitsRow ν o row ∧
    (∀ x ∈ Bound.correspondence operands, .var x ∉ o.slots → s.Occurs operands (ν x)) ∧
    t = (Bound.correspondence operands).map ν

/-- The rows of a union are the completions of the rows of its operands. -/
theorem mem_rows_union_iff_completes (hs : s.Valid) (ho : ∀ o ∈ operands, s.BuiltView o.view) :
    t ∈ (s.rows (.union id (operands.map Bound.view))).rows ↔
      ∃ o ∈ operands, ∃ row, s.Completes operands o row t := by
  rw [mem_rows_union hs ho]
  refine exists_congr fun o => and_congr_right fun _ => ?_
  constructor
  · rintro ⟨ν, ⟨row, hrow⟩, hdomain, ht⟩
    exact ⟨row, ν, hrow, hdomain, ht⟩
  · rintro ⟨row, ν, hrow, hdomain, ht⟩
    exact ⟨ν, ⟨row, hrow⟩, hdomain, ht⟩

/-- Any stored relations, however bound, have a union. It enumerates the tuples that it accepts and
whose atoms are all in stored rows of the operands. These are the completions of the stored rows of
each operand over this domain, and nothing else. -/
theorem union_enumerates_iff (hs : s.Reachable) (hne : operands ≠ [])
    (ho : ∀ o ∈ operands, s.BuiltView o.view) (id : Nat) (registry : String) :
    ∃ r, Relation.derive id .union (operands.map Bound.view) registry = .ok r ∧
      ∀ t, (t ∈ (s.rows r).rows ↔ s.accepts r t = true ∧ ∀ a ∈ t, s.Occurs operands a) ∧
        (t ∈ (s.rows r).rows ↔ ∃ o ∈ operands, ∃ row, s.Completes operands o row t) := by
  have hviews : operands.map Bound.view ≠ [] := by simpa using hne
  exact ⟨_, Relation.derive_union hviews, fun t =>
    ⟨mem_rows_union_iff_accepts hs.valid ho, mem_rows_union_iff_completes hs.valid ho⟩⟩

theorem union_enumerates_iff_kinshipKnown :
    ∃ r, Relation.derive 9 .union (kinshipKnown.map Bound.view) "main" = .ok r ∧
      ∀ t, (t ∈ (Session.kinship.store.rows r).rows ↔
          Session.kinship.store.accepts r t = true ∧
            ∀ a ∈ t, Session.kinship.store.Occurs kinshipKnown a) ∧
        (t ∈ (Session.kinship.store.rows r).rows ↔
          ∃ o ∈ kinshipKnown, ∃ row, Session.kinship.store.Completes kinshipKnown o row t) :=
  union_enumerates_iff Session.reachable_kinship (by simp [kinshipKnown]) builtView_kinshipKnown 9
    "main"

-- each woman stands beside every atom of the rows, whether a parent of somebody or not
example :
    (Session.kinship.store.rows (.union 9 (kinshipKnown.map Bound.view))).rows =
      [[.text "teresa", .text "piotr"], [.text "piotr", .text "ania"],
       [.text "teresa", .text "teresa"], [.text "teresa", .text "ania"],
       [.text "ania", .text "teresa"], [.text "ania", .text "piotr"],
       [.text "ania", .text "ania"]] := by decide

end Store

end RelationAlgebra
