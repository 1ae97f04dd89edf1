import RelationAlgebra.Proofs.Closure
import RelationAlgebra.Proofs.Store

/-!
# What guards keep out

A schema is declarable if a stored relation can be made of it. The guards that it declares look at
one pair at a time, beside the rows that are there already; still they hold of all stored pairs at
once (`Schema.guards_of_insertAll`), however the pairs of a batch are ordered.
-/

namespace RelationAlgebra

variable {schema : Schema} {ps : PropertySet} {x y : Extension} {t : Tuple} {a c : Atom}
  {name : String} {arity : Nat}

/-! ## Schemas -/

/-- Whether a stored relation can be made of a schema: it has a slot, only binary relations declare
properties, and none of these exclude each other. -/
structure Schema.Declarable (schema : Schema) : Prop where
  arity_pos : 0 < schema.arity
  binary : schema.properties ≠ {} → schema.arity = 2
  conflict : schema.properties.conflict? = none

theorem PropertySet.validate_eq_ok_iff : ps.validate name = .ok () ↔ ps.conflict? = none := by
  unfold PropertySet.validate
  cases ps.conflict? <;> simp

/-- Properties conflict when an inducer and a guard contradict each other. -/
theorem PropertySet.conflict?_eq_none_iff :
    ps.conflict? = none ↔ ¬ (ps.reflexive = true ∧ ps.irreflexive = true) ∧
      ¬ (ps.symmetric = true ∧ ps.asymmetric = true) := by
  unfold PropertySet.conflict?
  split
  next h => simp_all
  next h =>
    split
    next h' => simp_all
    next h' => simp_all

theorem Schema.plain_eq_ok_iff :
    Schema.plain name arity = .ok schema ↔ 0 < arity ∧ schema = { name, arity } := by
  unfold Schema.plain
  split
  next h => simp [h]
  next h => simp [Nat.pos_of_ne_zero h, eq_comm]

/-- Properties are taken for a binary relation unless they conflict. -/
theorem Schema.binary_eq_ok_iff :
    Schema.binary name ps = .ok schema ↔
      ps.conflict? = none ∧ schema = { name, arity := 2, properties := ps } := by
  rw [Schema.binary, bind_eq_ok_iff]
  constructor
  · rintro ⟨⟨⟩, hvalid, h⟩
    exact ⟨PropertySet.validate_eq_ok_iff.mp hvalid, (Except.ok.inj h).symm⟩
  · rintro ⟨hconflict, rfl⟩
    exact ⟨(), PropertySet.validate_eq_ok_iff.mpr hconflict, rfl⟩

theorem Schema.declarable_of_plain (h : Schema.plain name arity = .ok schema) :
    schema.Declarable := by
  obtain ⟨hpos, rfl⟩ := Schema.plain_eq_ok_iff.mp h
  exact ⟨hpos, fun hne => absurd rfl hne, rfl⟩

theorem Schema.declarable_of_binary (h : Schema.binary name ps = .ok schema) :
    schema.Declarable := by
  obtain ⟨hconflict, rfl⟩ := Schema.binary_eq_ok_iff.mp h
  exact ⟨Nat.two_pos, fun _ => rfl, hconflict⟩

/-! ## Pairs -/

/-- Whether stored pairs keep to the declared guards. An asymmetric relation may hold a pair of an
atom with itself. -/
structure PropertySet.Guards (ps : PropertySet) (x : Extension) : Prop where
  irreflexive : ps.irreflexive = true → ∀ a, ¬ x.Edge a a
  asymmetric : ps.asymmetric = true → ∀ a c, x.Edge a c → x.Edge c a → a = c

theorem PropertySet.guards_empty (ps : PropertySet) (arity : Nat) : ps.Guards (.empty arity) := by
  have hno : ∀ a c, ¬ (Extension.empty arity).Edge a c := by
    intro a c
    simp [Extension.Edge, Extension.empty]
  exact ⟨fun _ a => hno a a, fun _ a c h => absurd h (hno a c)⟩

/-- A pair is let in unless it is a forbidden loop or its opposite is stored. -/
theorem PropertySet.checkInsert_eq_ok_iff :
    ps.checkInsert name a c x = .ok () ↔
      (ps.irreflexive = true → a ≠ c) ∧ (ps.asymmetric = true → ¬ x.Edge c a) := by
  unfold PropertySet.checkInsert PropertySet.brokenGuard?
  rw [Extension.Edge, ← Extension.contains_iff]
  cases ps.irreflexive <;> cases ps.asymmetric <;> by_cases a = c <;>
    cases x.contains [c, a] <;> simp_all

theorem Extension.edge_push : (x.push t).Edge a c ↔ x.Edge a c ∨ [a, c] = t := mem_rows_push

/-- A pair that the guards let in keeps to them beside all the others. -/
theorem PropertySet.Guards.push (hx : ps.Guards x) (h : ps.checkInsert name a c x = .ok ()) :
    ps.Guards (x.push [a, c]) := by
  obtain ⟨hirreflexive, hasymmetric⟩ := PropertySet.checkInsert_eq_ok_iff.mp h
  refine ⟨fun hps d => ?_, fun hps d e => ?_⟩
  · rw [Extension.edge_push]
    rintro (hd | hd)
    · exact hx.irreflexive hps d hd
    · obtain ⟨rfl, rfl⟩ : d = a ∧ d = c := by simpa using hd
      exact hirreflexive hps rfl
  · rw [Extension.edge_push, Extension.edge_push]
    rintro (hde | hde) (hed | hed)
    · exact hx.asymmetric hps d e hde hed
    -- one of the two was there before, so the other was kept out
    · obtain ⟨rfl, rfl⟩ : e = a ∧ d = c := by simpa using hed
      exact absurd hde (hasymmetric hps)
    · obtain ⟨rfl, rfl⟩ : d = a ∧ e = c := by simpa using hde
      exact absurd hed (hasymmetric hps)
    · obtain ⟨rfl, rfl⟩ : d = a ∧ e = c := by simpa using hde
      exact (List.cons.inj hed).1.symm

/-- Tuples of other lengths are no pairs, and no guard looks at them. -/
theorem PropertySet.Guards.push_of_ne (hx : ps.Guards x) (h : ∀ a c, [a, c] ≠ t) :
    ps.Guards (x.push t) := by
  have hedge : ∀ a c, (x.push t).Edge a c ↔ x.Edge a c := by
    intro a c
    rw [Extension.edge_push, or_iff_left (h a c)]
  refine ⟨fun hps a => ?_, fun hps a c => ?_⟩
  · rw [hedge]
    exact hx.irreflexive hps a
  · rw [hedge, hedge]
    exact hx.asymmetric hps a c

/-- An insertion that succeeds keeps to the guards that were kept to. -/
theorem Schema.guards_of_insert (hx : schema.properties.Guards x)
    (h : schema.insert x t = .ok y) : schema.properties.Guards y := by
  obtain ⟨hguards, -, rfl⟩ := Schema.insert_eq_ok_iff.mp h
  unfold Schema.checkGuards at hguards
  split at hguards
  next a c => exact hx.push hguards
  next hne => exact hx.push_of_ne fun a c heq => hne a c heq.symm

theorem Schema.guards_of_insertAll {tuples : List Tuple} (hx : schema.properties.Guards x)
    (h : schema.insertAll x tuples = .ok y) : schema.properties.Guards y :=
  invariant_of_foldlM_eq_ok (P := schema.properties.Guards)
    (fun _ _ _ hx h => Schema.guards_of_insert hx h) hx h

/-- The check runs over all stored pairs, and finds none whose opposite is stored too and differs.
-/
theorem Extension.isAntisymmetric_iff (harity : x.arity = 2) (hx : ∀ t ∈ x.rows, t.length = 2) :
    x.isAntisymmetric = true ↔ ∀ a c, x.Edge a c → x.Edge c a → a = c := by
  rw [isAntisymmetric, harity, beq_self_eq_true, Bool.true_and, List.all_eq_true]
  constructor
  · intro h a c hac hca
    have hpair := h [a, c] hac
    rw [Bool.or_eq_true, beq_iff_eq] at hpair
    refine hpair.resolve_right fun hno => ?_
    rw [Extension.contains_iff.mpr hca] at hno
    cases hno
  · intro h t ht
    obtain ⟨a, c, rfl⟩ := List.length_eq_two.mp (hx t ht)
    rw [Bool.or_eq_true, beq_iff_eq, Bool.not_eq_true', ← Bool.not_eq_true, Extension.contains_iff]
    exact or_iff_not_imp_right.mpr fun hca => h a c ht (not_not.mp hca)

/-! ## Declarations of a dataset -/

namespace Declaration

variable {d : Declaration}

/-- The schema that a declaration writes down. -/
def declared (d : Declaration) : Schema where
  name := d.name
  arity := d.arity
  properties := d.properties

/-- A declaration gives the schema that it writes down, if a relation can be made of it. -/
theorem schema_eq_ok_iff : d.schema = .ok schema ↔ d.declared.Declarable ∧ schema = d.declared := by
  unfold Declaration.schema
  split
  next hempty =>
    have hps : d.properties = {} := of_decide_eq_true hempty
    have hdeclared : d.declared = { name := d.name, arity := d.arity } := by
      rw [declared, hps]
    rw [mapError_eq_ok_iff, Schema.plain_eq_ok_iff, hdeclared]
    exact and_congr_left fun _ => ⟨fun h => ⟨h, fun hne => absurd rfl hne, rfl⟩, fun h => h.arity_pos⟩
  next hempty =>
    have hps : d.properties ≠ {} := fun h => hempty (decide_eq_true h)
    split
    next harity =>
      simp only [reduceCtorEq, false_iff, not_and]
      exact fun h => absurd (h.binary hps) harity
    next harity =>
      have harity : d.arity = 2 := not_not.mp harity
      have hdeclared : d.declared =
          { name := d.name, arity := 2, properties := d.properties } := by
        rw [declared, harity]
      rw [mapError_eq_ok_iff, Schema.binary_eq_ok_iff, hdeclared]
      exact and_congr_left fun _ =>
        ⟨fun h => ⟨Nat.two_pos, fun _ => rfl, h⟩, fun h => h.conflict⟩

end Declaration

end RelationAlgebra
