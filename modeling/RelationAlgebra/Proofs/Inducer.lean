import RelationAlgebra.Proofs.Agreement
import RelationAlgebra.Proofs.Atomicity
import RelationAlgebra.Proofs.Membership

/-!
# What the declared rules bring about

Each declared rule looks at the stored pairs alone, so it is not clear that what all of them accept
together has the shape that they ask for (`PropertySet.Shapes`). It has, unless a relation declares
both symmetry and transitivity: it is the least relation of that shape around the stored pairs
(`PropertySet.shapes_accepts`, `PropertySet.accepts_least`). Reflexivity holds in any case
(`Session.inducers_hold`).
-/

namespace RelationAlgebra

/-! ## Over stored pairs -/

namespace PropertySet

variable {ps : PropertySet} {x : Extension} {a c d : Atom}

/-- Whether a relation between atoms is of the shape that the declared rules ask for. -/
structure Shapes (ps : PropertySet) (R : Atom → Atom → Prop) : Prop where
  reflexive : ps.reflexive = true → ∀ a, R a a
  symmetric : ps.symmetric = true → ∀ a c, R a c → R c a
  transitive : ps.transitive = true → ∀ a c d, R a c → R c d → R a d

/-- Whether a pair is stored or a declared rule accepts it. -/
def Accepts (ps : PropertySet) (x : Extension) (a c : Atom) : Prop :=
  x.Edge a c ∨ ps.induces a c x = true

theorem accepts_iff (harity : x.arity = 2) (hx : ∀ t ∈ x.rows, t.length = 2) :
    ps.Accepts x a c ↔ x.Edge a c ∨ (ps.reflexive = true ∧ a = c) ∨
      (ps.symmetric = true ∧ x.Edge c a) ∨
      (ps.transitive = true ∧ Relation.TransGen x.Edge a c) :=
  or_congr_right (induces_iff harity hx)

section Pairs

variable (harity : x.arity = 2) (hx : ∀ t ∈ x.rows, t.length = 2)

include harity hx

theorem accepts_self (h : ps.reflexive = true) (a : Atom) : ps.Accepts x a a :=
  (accepts_iff harity hx).mpr (Or.inr (Or.inl ⟨h, rfl⟩))

/-- Without chains, a pair is accepted for one of three reasons, each of which turns around. -/
theorem accepts_swap (h : ps.symmetric = true) (hno : ps.transitive = false)
    (hac : ps.Accepts x a c) : ps.Accepts x c a := by
  rw [accepts_iff harity hx] at hac ⊢
  rcases hac with hac | ⟨hreflexive, rfl⟩ | ⟨-, hca⟩ | ⟨htransitive, -⟩
  · exact Or.inr (Or.inr (Or.inl ⟨h, hac⟩))
  · exact Or.inr (Or.inl ⟨hreflexive, rfl⟩)
  · exact Or.inl hca
  · rw [hno] at htransitive
    cases htransitive

/-- Without symmetry, what is accepted is chains and, if declared, the diagonal. -/
theorem accepts_iff_chain (h : ps.transitive = true) (hno : ps.symmetric = false) :
    ps.Accepts x a c ↔
      (ps.reflexive = true ∧ a = c) ∨ Relation.TransGen x.Edge a c := by
  rw [accepts_iff harity hx]
  constructor
  · rintro (hac | hdiagonal | ⟨hsymmetric, -⟩ | ⟨-, hchain⟩)
    · exact Or.inr (.single hac)
    · exact Or.inl hdiagonal
    · rw [hno] at hsymmetric
      cases hsymmetric
    · exact Or.inr hchain
  · rintro (hdiagonal | hchain)
    · exact Or.inr (Or.inl hdiagonal)
    · exact Or.inr (Or.inr (Or.inr ⟨h, hchain⟩))

/-- Without symmetry, accepted pairs that meet make an accepted pair. -/
theorem accepts_trans (h : ps.transitive = true) (hno : ps.symmetric = false)
    (hac : ps.Accepts x a c) (hcd : ps.Accepts x c d) : ps.Accepts x a d := by
  have hiff := fun {a c : Atom} => accepts_iff_chain (a := a) (c := c) harity hx h hno
  rcases hiff.mp hac with ⟨-, rfl⟩ | hchain
  · exact hcd
  · rcases hiff.mp hcd with ⟨-, rfl⟩ | hchain'
    · exact hac
    · exact hiff.mpr (Or.inr (hchain.trans hchain'))

/-- Unless symmetry and transitivity are declared together, acceptance has every declared shape. -/
theorem shapes_accepts (hno : ¬ (ps.symmetric = true ∧ ps.transitive = true)) :
    ps.Shapes (ps.Accepts x) where
  reflexive h := accepts_self harity hx h
  symmetric h _ _ :=
    accepts_swap harity hx h (Bool.eq_false_iff.mpr fun htransitive => hno ⟨h, htransitive⟩)
  transitive h _ _ _ :=
    accepts_trans harity hx h (Bool.eq_false_iff.mpr fun hsymmetric => hno ⟨hsymmetric, h⟩)

/-- The rules accept no pair that is not in every relation of their shape around the stored
pairs. -/
theorem accepts_least {R : Atom → Atom → Prop} (hR : ps.Shapes R)
    (hstored : ∀ a c, x.Edge a c → R a c) (h : ps.Accepts x a c) : R a c := by
  rcases (accepts_iff harity hx).mp h with
    hac | ⟨hreflexive, rfl⟩ | ⟨hsymmetric, hca⟩ | ⟨htransitive, hchain⟩
  · exact hstored a c hac
  · exact hR.reflexive hreflexive a
  · exact hR.symmetric hsymmetric c a (hstored c a hca)
  · have htrans : IsTrans Atom R := ⟨hR.transitive htransitive⟩
    exact Relation.transGen_minimal hstored a c hchain

end Pairs

end PropertySet

/-! ## Of stored and derived relations -/

namespace Store

variable {s : Store} {r : Relation} {b : Base} {t : Tuple} {a c : Atom}

theorem accepts_pair_eq (harity : (s.extension b).arity = 2) :
    s.accepts (.base b) [a, c] = true ↔ b.properties.Accepts (s.extension b) a c :=
  accepts_pair harity

theorem Built.accepts_row (hr : s.Built r) (hs : s.Valid) (ht : t ∈ (s.rows r).rows) :
    s.accepts r t = true := by
  cases r with
  | base => exact hs.accepts_of_mem_extension ht
  | union | intersection | complement | composition | converse => exact (hr.regular hs).sound t ht

end Store

namespace Session

variable {s : Session} {r : Relation}

/-- After any requests, a binary relation accepts the pairs that it enumerates, and what it accepts
keeps to the rules that it declares: to reflexivity always, to symmetry if transitivity is not
declared, and to transitivity if symmetry is not declared. A stored relation accepts nothing else:
what it accepts is in every relation of the declared shape that its pairs are in. -/
theorem inducers_hold (hs : s.Reached) (hr : s.store.Built r) (harity : r.arity = 2) :
    (∀ a c, [a, c] ∈ (s.store.rows r).rows → s.store.accepts r [a, c] = true) ∧
      (r.properties.reflexive = true → ∀ a, s.store.accepts r [a, a] = true) ∧
      (r.properties.symmetric = true → r.properties.transitive = false →
        ∀ a c, s.store.accepts r [a, c] = true → s.store.accepts r [c, a] = true) ∧
      (r.properties.transitive = true → r.properties.symmetric = false →
        ∀ a c d, s.store.accepts r [a, c] = true → s.store.accepts r [c, d] = true →
          s.store.accepts r [a, d] = true) ∧
      (r.isDerived = false → ∀ R : Atom → Atom → Prop, r.properties.Shapes R →
        (∀ a c, [a, c] ∈ (s.store.rows r).rows → R a c) →
        ∀ a c, s.store.accepts r [a, c] = true → R a c) := by
  refine ⟨fun a c h => hr.accepts_row hs.valid.store h, ?_⟩
  cases r with
  | base b =>
    have hb := hr.holds
    have hpair := hb.arity_extension.trans harity
    have hlen := hs.valid.store.length_of_mem_binary hb harity
    simp only [Store.accepts_pair_eq hpair]
    exact ⟨PropertySet.accepts_self hpair hlen,
      fun h hno _ _ => PropertySet.accepts_swap hpair hlen h hno,
      fun h hno _ _ _ => PropertySet.accepts_trans hpair hlen h hno,
      fun _ _ hR hstored _ _ => PropertySet.accepts_least hpair hlen hR hstored⟩
  -- a derived relation declares nothing
  | union | intersection | complement | composition | converse =>
    refine ⟨fun h => ?_, fun h => ?_, fun h => ?_, fun h => ?_⟩ <;> cases h

/-- Flights lead nowhere from the last town. -/
theorem inducers_hold_transit :
    transit.store.accepts (.base transitRail) [.text "voss", .text "bergen"] = true ∧
      transit.store.accepts (.base transitFlight) [.text "bergen", .text "alta"] = true ∧
      (∀ c, transit.store.accepts (.base transitFlight) [.text "alta", c] = false) ∧
      transit.store.accepts (.base transitFerry) [.text "alta", .text "alta"] = true := by
  have hreached : transit.Reached := reached_run .empty transitRequests
  have hrail := inducers_hold hreached (.base holds_transitRail) rfl
  have hflight := inducers_hold hreached (.base holds_transitFlight) rfl
  have hferry := inducers_hold hreached (.base holds_transitFerry) rfl
  refine ⟨hrail.2.2.1 rfl rfl _ _ (hrail.1 _ _ (by decide)), ?_, fun c => ?_, hferry.2.1 rfl _⟩
  · exact hflight.2.2.2.1 rfl rfl _ (.text "oslo") _ (hflight.1 _ _ (by decide))
      (hflight.1 _ _ (by decide))
  · have hshape : transitFlight.properties.Shapes fun a _ => a ≠ .text "alta" := by
      refine ⟨fun h => ?_, fun h => ?_, fun _ _ _ _ ha _ => ha⟩ <;> cases h
    have hrows : ∀ t ∈ (transit.store.rows (.base transitFlight)).rows,
        t.head? ≠ some (.text "alta") := by decide
    have hstored : ∀ a c, [a, c] ∈ (transit.store.rows (.base transitFlight)).rows →
        a ≠ .text "alta" := by
      rintro a c h rfl
      exact hrows _ h rfl
    rw [Bool.eq_false_iff]
    exact fun h => hflight.2.2.2.2 rfl _ hshape hstored _ c h rfl

end Session

-- chains do not turn around, so symmetry is lost where transitivity is declared besides
example :
    PropertySet.induces { symmetric := true, transitive := true } (.int 1) (.int 3)
      ⟨2, [[.int 1, .int 2], [.int 2, .int 3]]⟩ = true ∧
    PropertySet.induces { symmetric := true, transitive := true } (.int 3) (.int 1)
      ⟨2, [[.int 1, .int 2], [.int 2, .int 3]]⟩ = false := by decide

end RelationAlgebra
