import RelationAlgebra.Proofs.Declared
import RelationAlgebra.Proofs.Membership

/-!
# Guards and membership

Guards hold of the stored pairs, and membership goes beyond these. A chain of stored pairs may lead
back to where it began, so beside transitivity an irreflexive relation may accept a pair of an atom
with itself, and an asymmetric one may accept a pair in both orders. This is all that can happen
(`Session.accepts_beside_guards_iff`): reflexivity and symmetry exclude the guards that they would
contradict, but for the pairs of an atom with itself, which asymmetry leaves alone.
-/

namespace RelationAlgebra.Session

variable {s : Session} {b : Base} {a c : Atom}

theorem Lawful.arity_eq_two (hs : s.Lawful) (hb : s.Knows b) {p : Property}
    (hp : b.properties.declares p = true) : b.arity = 2 := by
  refine (hs.declarable hb).binary fun hempty => ?_
  rw [hempty] at hp
  cases p <;> cases hp

/-- What a relation that declares some property accepts. -/
theorem Reached.accepts_pair (hs : s.Reached) (hb : s.Knows b) {p : Property}
    (hp : b.properties.declares p = true) :
    s.store.accepts (.base b) [a, c] = true ↔
      (s.store.extension b).Edge a c ∨ (b.properties.reflexive = true ∧ a = c) ∨
        (b.properties.symmetric = true ∧ (s.store.extension b).Edge c a) ∨
        (b.properties.transitive = true ∧
          Relation.TransGen (s.store.extension b).Edge a c) := by
  have hholds := hs.valid.holds_of_knows hb
  have harity := hs.lawful.arity_eq_two hb hp
  have hpair := hholds.arity_extension.trans harity
  rw [Store.accepts_pair hpair,
    PropertySet.induces_iff hpair (hs.valid.store.length_of_mem_binary hholds harity)]

/-- The one way around an irreflexive guard is a cycle of stored edges, closed by transitivity. -/
theorem accepts_self_iff (hs : s.Reached) (hb : s.Knows b)
    (h : b.properties.irreflexive = true) :
    s.store.accepts (.base b) [a, a] = true ↔
      b.properties.transitive = true ∧ Relation.TransGen (s.store.extension b).Edge a a := by
  have hno := (hs.lawful.guards hb).irreflexive h a
  have hreflexive : ¬ b.properties.reflexive = true := fun hr =>
    (PropertySet.conflict?_eq_none_iff.mp (hs.lawful.declarable hb).conflict).1 ⟨hr, h⟩
  rw [hs.accepts_pair hb (p := .irreflexive) h]
  simp [hno, hreflexive]

theorem accepts_both_iff (hs : s.Reached) (hb : s.Knows b)
    (h : b.properties.asymmetric = true) :
    s.store.accepts (.base b) [a, c] = true ∧ s.store.accepts (.base b) [c, a] = true ↔
      (a = c ∧ (b.properties.reflexive = true ∨ (s.store.extension b).Edge a a)) ∨
        (b.properties.transitive = true ∧
          Relation.TransGen (s.store.extension b).Edge a c ∧
          Relation.TransGen (s.store.extension b).Edge c a) := by
  have hpairs := (hs.lawful.guards hb).asymmetric h a c
  have hsymmetric : ¬ b.properties.symmetric = true := fun hs' =>
    (PropertySet.conflict?_eq_none_iff.mp (hs.lawful.declarable hb).conflict).2 ⟨hs', h⟩
  rw [hs.accepts_pair hb (p := .asymmetric) h, hs.accepts_pair hb (p := .asymmetric) h]
  simp only [hsymmetric, Bool.false_eq_true, false_and, false_or]
  constructor
  -- each order is stored, or equal atoms, or a chain; a stored pair is a chain of its own
  · rintro ⟨hac | ⟨hr, rfl⟩ | ⟨ht, hac⟩, hca | ⟨hr', heq⟩ | ⟨ht', hca⟩⟩
    · obtain rfl := hpairs hac hca
      exact Or.inl ⟨rfl, Or.inr hac⟩
    · exact Or.inl ⟨heq.symm, Or.inl hr'⟩
    · exact Or.inr ⟨ht', .single hac, hca⟩
    · exact Or.inl ⟨rfl, Or.inl hr⟩
    · exact Or.inl ⟨rfl, Or.inl hr⟩
    · exact Or.inl ⟨rfl, Or.inl hr⟩
    · exact Or.inr ⟨ht, hac, .single hca⟩
    · exact Or.inl ⟨heq.symm, Or.inl hr'⟩
    · exact Or.inr ⟨ht, hac, hca⟩
  · rintro (⟨rfl, hr | haa⟩ | ⟨ht, hac, hca⟩)
    · exact ⟨Or.inr (Or.inl ⟨hr, rfl⟩), Or.inr (Or.inl ⟨hr, rfl⟩)⟩
    · exact ⟨Or.inl haa, Or.inl haa⟩
    · exact ⟨Or.inr (Or.inr ⟨ht, hac⟩), Or.inr (Or.inr ⟨ht, hca⟩)⟩

/-- An irreflexive relation accepts a pair of an atom with itself exactly if it is transitive and a
chain of stored pairs leads back to the atom. An asymmetric relation accepts two atoms in both orders
exactly if they are equal and it is reflexive or holds the pair, or if it is transitive and chains of
stored pairs lead from each atom to the other. -/
theorem accepts_beside_guards_iff (hs : s.Reached) (hb : s.Knows b) :
    (b.properties.irreflexive = true → ∀ a,
      (s.store.accepts (.base b) [a, a] = true ↔
        b.properties.transitive = true ∧
          Relation.TransGen (s.store.extension b).Edge a a)) ∧
      (b.properties.asymmetric = true → ∀ a c,
        (s.store.accepts (.base b) [a, c] = true ∧ s.store.accepts (.base b) [c, a] = true ↔
          (a = c ∧ (b.properties.reflexive = true ∨ (s.store.extension b).Edge a a)) ∨
            (b.properties.transitive = true ∧
              Relation.TransGen (s.store.extension b).Edge a c ∧
              Relation.TransGen (s.store.extension b).Edge c a))) :=
  ⟨fun h _ => accepts_self_iff hs hb h, fun h _ _ => accepts_both_iff hs hb h⟩

theorem accepts_beside_guards_iff_gameBeats :
    Relation.TransGen (game.store.extension gameBeats).Edge (.text "rock") (.text "rock") ∧
      Relation.TransGen (game.store.extension gameBeats).Edge (.text "scissors")
        (.text "rock") := by
  have h := accepts_beside_guards_iff reached_game knows_gameBeats
  have hself := (h.1 rfl (.text "rock")).mp (by decide)
  have hboth := (h.2 rfl (.text "rock") (.text "scissors")).mp ⟨by decide, by decide⟩
  rcases hboth with ⟨heq, -⟩ | ⟨-, -, hback⟩
  · exact absurd heq (by decide)
  · exact ⟨hself.2, hback⟩

/-- Guards do not rule all membership: in the circle of the game, everything beats itself, and any
two beat each other. -/
theorem not_forall_accepts_within_guards :
    ¬ ∀ (s : Session) (b : Base), s.Reached → s.Knows b →
      (b.properties.irreflexive = true → ∀ a, s.store.accepts (.base b) [a, a] = false) ∧
        (b.properties.asymmetric = true → ∀ a c,
          ¬ (s.store.accepts (.base b) [a, c] = true ∧
            s.store.accepts (.base b) [c, a] = true)) := by
  intro h
  have hboth := (h game gameBeats reached_game knows_gameBeats).2 rfl (.text "rock")
    (.text "scissors")
  exact hboth ⟨by decide, by decide⟩

end RelationAlgebra.Session
