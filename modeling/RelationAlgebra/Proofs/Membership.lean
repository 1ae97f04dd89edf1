import RelationAlgebra.Proofs.Closure
import RelationAlgebra.Proofs.Session

/-!
# Membership of stored relations

A stored relation accepts its rows. A binary one accepts besides what a declared rule adds, and every
rule reads the stored pairs alone (`Store.accepts_pair_iff`): no pair that one rule adds is a link of
a chain for another.
-/

namespace RelationAlgebra

/-- What the declared rules accept over stored pairs. -/
theorem PropertySet.induces_iff {ps : PropertySet} {x : Extension} {a c : Atom}
    (harity : x.arity = 2) (hx : ∀ t ∈ x.rows, t.length = 2) :
    ps.induces a c x = true ↔
      (ps.reflexive = true ∧ a = c) ∨ (ps.symmetric = true ∧ x.Edge c a) ∨
        (ps.transitive = true ∧ Relation.TransGen x.Edge a c) := by
  have hrule : ∀ r : Inducer, (r ∈ ps.inducers ∧ r.holds x a c = true) ↔
      ps.declares r.property = true ∧ r.holds x a c = true := by
    intro r
    cases r <;> simp [inducers, Inducer.all]
  rw [induces, List.any_eq_true]
  simp only [hrule]
  constructor
  · rintro ⟨r, hdeclared, hr⟩
    cases r with
    | reflexive => exact Or.inl ⟨hdeclared, eq_of_beq hr⟩
    | symmetric => exact Or.inr (Or.inl ⟨hdeclared, Extension.contains_iff.mp hr⟩)
    | transitive => exact Or.inr (Or.inr ⟨hdeclared, (Extension.reachable_iff harity hx).mp hr⟩)
  · rintro (⟨hdeclared, h⟩ | ⟨hdeclared, h⟩ | ⟨hdeclared, h⟩)
    · exact ⟨.reflexive, hdeclared, beq_iff_eq.mpr h⟩
    · exact ⟨.symmetric, hdeclared, Extension.contains_iff.mpr h⟩
    · exact ⟨.transitive, hdeclared, (Extension.reachable_iff harity hx).mpr h⟩

namespace Store

variable {s : Store} {b : Base} {a c : Atom}

/-- A pair is accepted if it is stored or the declared inducers give it. -/
theorem accepts_pair (harity : (s.extension b).arity = 2) :
    s.accepts (.base b) [a, c] = true ↔
      (s.extension b).Edge a c ∨ b.properties.induces a c (s.extension b) = true := by
  simp [accepts, read, Reading.stored, harity, Extension.contains_iff, Extension.Edge]

theorem Valid.length_of_mem_binary (hs : s.Valid) (hb : s.Holds b) (harity : b.arity = 2) :
    ∀ t ∈ (s.extension b).rows, t.length = 2 := by
  intro t ht
  rw [hs.length_of_mem_extension hb ht, harity]

/-- A stored binary relation accepts a pair that is stored, or that a declared rule finds in the
stored pairs. For transitivity this is a non-empty chain, so an atom is related to itself only by a
cycle. -/
theorem accepts_pair_iff (hs : s.Reachable) (hb : s.Holds b) (harity : b.arity = 2) (a c : Atom) :
    s.accepts (.base b) [a, c] = true ↔
      (s.extension b).Edge a c ∨ (b.properties.reflexive = true ∧ a = c) ∨
        (b.properties.symmetric = true ∧ (s.extension b).Edge c a) ∨
        (b.properties.transitive = true ∧ Relation.TransGen (s.extension b).Edge a c) := by
  have hpair : (s.extension b).arity = 2 := hb.arity_extension.trans harity
  rw [accepts_pair hpair,
    PropertySet.induces_iff hpair (hs.valid.length_of_mem_binary hb harity)]

theorem accepts_pair_iff_kinshipParent :
    Session.kinship.store.accepts (.base Session.kinshipParent) [.text "teresa", .text "ania"] =
        true ↔
      (Session.kinship.store.extension Session.kinshipParent).Edge (.text "teresa")
          (.text "ania") ∨
        (Session.kinshipParent.properties.reflexive = true ∧
          Atom.text "teresa" = .text "ania") ∨
        (Session.kinshipParent.properties.symmetric = true ∧
          (Session.kinship.store.extension Session.kinshipParent).Edge (.text "ania")
            (.text "teresa")) ∨
        (Session.kinshipParent.properties.transitive = true ∧
          Relation.TransGen (Session.kinship.store.extension Session.kinshipParent).Edge
            (.text "teresa") (.text "ania")) :=
  accepts_pair_iff Session.reachable_kinship Session.holds_kinshipParent rfl _ _

end Store

-- the pairs that symmetry adds are no links: `1` and `3` lead to `2`, but `1` does not lead to `3`
example :
    PropertySet.induces { symmetric := true, transitive := true } (.int 1) (.int 3)
      ⟨2, [[.int 1, .int 2], [.int 3, .int 2]]⟩ = false := by decide

end RelationAlgebra
