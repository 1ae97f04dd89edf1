import RelationAlgebra.Proofs.Expression

/-!
# The lattice of union and intersection

Unbound relations of one arity that list their rows only make up a distributive lattice under union
and intersection: the value of a union is the union of the values and that of an intersection their
intersection, so the laws are those of sets. A union is enumerated operand by operand and an
intersection by one joint search, and a test of membership asks each operand of either in turn.
Stored relations take part with their rows alone, whatever pairs their properties induce.
-/

namespace RelationAlgebra

namespace Expression

variable {s : Store} {n : Nat} {e f g : Expression}

/-- A union may have any number of operands of its type, here three in one call. -/
theorem Typed.union_triple (he : e.Typed s n) (hf : f.Typed s n) (hg : g.Typed s n) :
    (Expression.union [e, f, g]).Typed s n :=
  .union (List.cons_ne_nil e [f, g]) (by simp [he, hf, hg])

theorem Typed.intersection_triple (he : e.Typed s n) (hf : f.Typed s n) (hg : g.Typed s n) :
    (Expression.intersection [e, f, g]).Typed s n :=
  .intersection (List.cons_ne_nil e [f, g]) (by simp [he, hf, hg])

/-- The union of three operands in one call is the union of sets, nested to the right. -/
theorem value_union_triple :
    (union [e, f, g]).value s = e.value s ∪ (f.value s ∪ g.value s) := by
  rw [value_union, someValue_cons, ← value_union, value_union_pair]

theorem value_intersection_triple :
    (intersection [e, f, g]).value s = e.value s ∩ (f.value s ∩ g.value s) := by
  rw [value_intersection, everyValue_cons, ← value_intersection, value_intersection_pair]

/-! ## Idempotence and commutativity -/

/-- Union is idempotent, also for an operand that accepts induced pairs: the union shows its rows
only. -/
theorem Typed.exhibits_union_self (he : e.Typed s n) :
    s.Exhibits (.union [e, e]) (e.value s) := by
  have hvalue : (Expression.union [e, e]).value s = e.value s := by
    rw [value_union_pair, Set.union_self]
  exact hvalue ▸ (he.union_pair he).exhibits rfl

theorem Typed.exhibits_intersection_self (he : e.Typed s n) :
    s.Exhibits (.intersection [e, e]) (e.value s) := by
  have hvalue : (Expression.intersection [e, e]).value s = e.value s := by
    rw [value_intersection_pair, Set.inter_self]
  exact hvalue ▸ (he.intersection_pair he).exhibits rfl

/-- Union is commutative. -/
theorem Typed.union_comm (he : e.Typed s n) (hf : f.Typed s n) :
    s.Agree (.union [e, f]) (.union [f, e]) := by
  refine (he.union_pair hf).agree (hf.union_pair he) rfl rfl ?_
  rw [value_union_pair, value_union_pair, Set.union_comm]

theorem Typed.intersection_comm (he : e.Typed s n) (hf : f.Typed s n) :
    s.Agree (.intersection [e, f]) (.intersection [f, e]) := by
  refine (he.intersection_pair hf).agree (hf.intersection_pair he) rfl rfl ?_
  rw [value_intersection_pair, value_intersection_pair, Set.inter_comm]

/-! ## Associativity -/

/-- A union nested to the left agrees with the flat one. -/
theorem Typed.union_nested_left (he : e.Typed s n) (hf : f.Typed s n) (hg : g.Typed s n) :
    s.Agree (.union [.union [e, f], g]) (.union [e, f, g]) := by
  refine ((he.union_pair hf).union_pair hg).agree (he.union_triple hf hg) rfl rfl ?_
  rw [value_union_pair, value_union_pair, value_union_triple, Set.union_assoc]

theorem Typed.union_nested_right (he : e.Typed s n) (hf : f.Typed s n) (hg : g.Typed s n) :
    s.Agree (.union [e, .union [f, g]]) (.union [e, f, g]) := by
  refine (he.union_pair (hf.union_pair hg)).agree (he.union_triple hf hg) rfl rfl ?_
  rw [value_union_pair, value_union_pair, value_union_triple]

/-- An intersection nested to the left agrees with the flat one. -/
theorem Typed.intersection_nested_left (he : e.Typed s n) (hf : f.Typed s n)
    (hg : g.Typed s n) :
    s.Agree (.intersection [.intersection [e, f], g]) (.intersection [e, f, g]) := by
  refine ((he.intersection_pair hf).intersection_pair hg).agree
    (he.intersection_triple hf hg) rfl rfl ?_
  rw [value_intersection_pair, value_intersection_pair, value_intersection_triple,
    Set.inter_assoc]

theorem Typed.intersection_nested_right (he : e.Typed s n) (hf : f.Typed s n)
    (hg : g.Typed s n) :
    s.Agree (.intersection [e, .intersection [f, g]]) (.intersection [e, f, g]) := by
  refine (he.intersection_pair (hf.intersection_pair hg)).agree
    (he.intersection_triple hf hg) rfl rfl ?_
  rw [value_intersection_pair, value_intersection_pair, value_intersection_triple]

/-! ## Absorption -/

/-- A union absorbs an intersection with one of its own operands. -/
theorem Typed.exhibits_union_intersection (he : e.Typed s n) (hf : f.Typed s n) :
    s.Exhibits (.union [e, .intersection [e, f]]) (e.value s) := by
  have hvalue : (Expression.union [e, .intersection [e, f]]).value s = e.value s := by
    rw [value_union_pair, value_intersection_pair]
    exact Set.union_eq_self_of_subset_right Set.inter_subset_left
  exact hvalue ▸ (he.union_pair (he.intersection_pair hf)).exhibits rfl

/-- An intersection absorbs a union with one of its own operands. -/
theorem Typed.exhibits_intersection_union (he : e.Typed s n) (hf : f.Typed s n) :
    s.Exhibits (.intersection [e, .union [e, f]]) (e.value s) := by
  have hvalue : (Expression.intersection [e, .union [e, f]]).value s = e.value s := by
    rw [value_intersection_pair, value_union_pair]
    exact Set.inter_eq_self_of_subset_left Set.subset_union_left
  exact hvalue ▸ (he.intersection_pair (he.union_pair hf)).exhibits rfl

/-! ## Distributivity -/

/-- Intersection distributes over union. -/
theorem Typed.intersection_union (he : e.Typed s n) (hf : f.Typed s n) (hg : g.Typed s n) :
    s.Agree (.intersection [e, .union [f, g]])
      (.union [.intersection [e, f], .intersection [e, g]]) := by
  refine (he.intersection_pair (hf.union_pair hg)).agree
    ((he.intersection_pair hf).union_pair (he.intersection_pair hg)) rfl rfl ?_
  rw [value_intersection_pair, value_union_pair, value_union_pair, value_intersection_pair,
    value_intersection_pair, Set.inter_union_distrib_left]

/-- Union distributes over intersection. -/
theorem Typed.union_intersection (he : e.Typed s n) (hf : f.Typed s n) (hg : g.Typed s n) :
    s.Agree (.union [e, .intersection [f, g]])
      (.intersection [.union [e, f], .union [e, g]]) := by
  refine (he.union_pair (hf.intersection_pair hg)).agree
    ((he.union_pair hf).intersection_pair (he.union_pair hg)) rfl rfl ?_
  rw [value_union_pair, value_intersection_pair, value_intersection_pair, value_union_pair,
    value_union_pair, Set.union_inter_distrib_left]

end Expression

namespace Store

variable {s : Store} {b c d : Base}

/-- What unions and intersections of stored relations hold, and the laws of a distributive lattice
for them. -/
structure LatticeLaws (s : Store) (b c d : Base) : Prop where
  union : s.Exhibits (.union [b, c]) {t | t ∈ (s.extension b).rows ∨ t ∈ (s.extension c).rows}
  intersection :
    s.Exhibits (.intersection [b, c]) {t | t ∈ (s.extension b).rows ∧ t ∈ (s.extension c).rows}
  union_self : s.Exhibits (.union [b, b]) {t | t ∈ (s.extension b).rows}
  intersection_self : s.Exhibits (.intersection [b, b]) {t | t ∈ (s.extension b).rows}
  union_comm : s.Agree (.union [b, c]) (.union [c, b])
  intersection_comm : s.Agree (.intersection [b, c]) (.intersection [c, b])
  union_nested_left : s.Agree (.union [.union [b, c], d]) (.union [b, c, d])
  union_nested_right : s.Agree (.union [b, .union [c, d]]) (.union [b, c, d])
  intersection_nested_left :
    s.Agree (.intersection [.intersection [b, c], d]) (.intersection [b, c, d])
  intersection_nested_right :
    s.Agree (.intersection [b, .intersection [c, d]]) (.intersection [b, c, d])
  union_intersection_self :
    s.Exhibits (.union [b, .intersection [b, c]]) {t | t ∈ (s.extension b).rows}
  intersection_union_self :
    s.Exhibits (.intersection [b, .union [b, c]]) {t | t ∈ (s.extension b).rows}
  intersection_union :
    s.Agree (.intersection [b, .union [c, d]])
      (.union [.intersection [b, c], .intersection [b, d]])
  union_intersection :
    s.Agree (.union [b, .intersection [c, d]])
      (.intersection [.union [b, c], .union [b, d]])

/-- Stored relations of one arity make up a distributive lattice, whatever they declare. -/
theorem latticeLaws_of_holds (hs : s.Reachable) (hb : s.Holds b) (hc : s.Holds c) (hd : s.Holds d)
    (hcb : c.arity = b.arity) (hdb : d.arity = b.arity) : s.LatticeLaws b c d := by
  have htb : Expression.Typed s b.arity b := .relation (hs.valid.tabular_base hb)
  have htc : Expression.Typed s b.arity c := .relation (hcb ▸ hs.valid.tabular_base hc)
  have htd : Expression.Typed s b.arity d := .relation (hdb ▸ hs.valid.tabular_base hd)
  have hunion := (htb.union_pair htc).exhibits rfl
  have hintersection := (htb.intersection_pair htc).exhibits rfl
  rw [Expression.value_union_pair, Expression.value_base, Expression.value_base] at hunion
  rw [Expression.value_intersection_pair, Expression.value_base, Expression.value_base]
    at hintersection
  exact {
    union := hunion
    intersection := hintersection
    union_self := Expression.value_base ▸ htb.exhibits_union_self
    intersection_self := Expression.value_base ▸ htb.exhibits_intersection_self
    union_comm := htb.union_comm htc
    intersection_comm := htb.intersection_comm htc
    union_nested_left := htb.union_nested_left htc htd
    union_nested_right := htb.union_nested_right htc htd
    intersection_nested_left := htb.intersection_nested_left htc htd
    intersection_nested_right := htb.intersection_nested_right htc htd
    union_intersection_self := Expression.value_base ▸ htb.exhibits_union_intersection htc
    intersection_union_self := Expression.value_base ▸ htb.exhibits_intersection_union htc
    intersection_union := htb.intersection_union htc htd
    union_intersection := htb.union_intersection htc htd }

theorem latticeLaws_of_holds_transit :
    Session.transit.store.LatticeLaws Session.transitRail Session.transitFlight
      Session.transitFerry :=
  latticeLaws_of_holds Session.reachable_transit Session.holds_transitRail
    Session.holds_transitFlight Session.holds_transitFerry rfl rfl

end Store

end RelationAlgebra
