import Mathlib.Order.BooleanAlgebra.Set
import RelationAlgebra.Proofs.DoubleComplement
import RelationAlgebra.Proofs.Expression

/-!
# The laws of De Morgan

The complement of an unbound relation that accepts its rows only holds what the registry has of its
arity beside these rows. Where the registry lists the relation itself, its rows are not among those
that the complement is taken in, but they would be rejected anyway. So of such relations, the
complement of a union is the intersection of the complements and the complement of an intersection
is their union (`Store.deMorgan_of_holds`), although these complements are taken in different rows.
Inducers would break the laws: a complement leaves out induced pairs, which no union holds.
-/

namespace RelationAlgebra

namespace Relation

/-- The complement of a combination of two unbound relations. The combination gets the number
`number 0`. -/
def complementOf (number : Nat → Nat) (registry : String) (combinator : Combinator)
    (q r : Relation) : Except RelationError Relation := do
  let (c, k) ← Expression.apply number registry combinator [q, r] 0
  let (p, _) ← Expression.apply number registry .complement [c] k
  return p

/-- A combination of the complements of two unbound relations. -/
def ofComplements (number : Nat → Nat) (registry : String) (combinator : Combinator)
    (q r : Relation) : Except RelationError Relation := do
  let (q', k) ← Expression.apply number registry .complement [q] 0
  let (r', k) ← Expression.apply number registry .complement [r] k
  let (p, _) ← Expression.apply number registry combinator [q', r'] k
  return p

end Relation

namespace Store

variable {s : Store} {registry : String} {n id : Nat} {p q r : Relation} {rs : List Relation}
  {b c : Base} {t : Tuple} {T U : Set Tuple} {combinator : Combinator} {number : Nat → Nat}

/-- Whether a relation holds the tuples of a set as its rows, and accepts no others. -/
structure Literal (s : Store) (n : Nat) (T : Set Tuple) (r : Relation) : Prop
    extends s.Holding n T r where
  built : s.Built r
  accepts_iff : ∀ t, s.accepts r t = true ↔ t ∈ T

theorem Built.derive_unbound (hid : s.Reserves id) (hrs : ∀ r ∈ rs, s.Built r)
    (h : Relation.derive id combinator (rs.map Relation.identityView) registry = .ok p) :
    s.Built p := by
  have hviews : ∀ v ∈ rs.map Relation.identityView, s.BuiltView v := by
    rw [List.forall_mem_map]
    exact fun r hr => (hrs r hr).identityView
  exact .derive hid (fun v hv => (hviews v hv).relation) (fun v hv => (hviews v hv).slots) h

/-- Without inducers, a stored relation accepts its rows and nothing else. -/
theorem Valid.literal_base (hs : s.Valid) (hb : s.Holds b) (h : b.properties.inducers = []) :
    s.Literal b.arity {t | t ∈ (s.extension b).rows} (.base b) := by
  refine ⟨⟨hs.tabular_base hb, fun t => Iff.rfl⟩, .base hb, fun t => ?_⟩
  have hinduces : ∀ a c x, b.properties.induces a c x = false := by
    intro a c x
    rw [PropertySet.induces, h, List.any_nil]
  rw [accepts_base_iff]
  constructor
  · rintro ⟨-, hrow | ⟨a, c, -, h⟩⟩
    · exact hrow
    · rw [hinduces] at h
      cases h
  · exact fun ht => ⟨(hs.valid_extension b).length t ht, Or.inl ht⟩

/-! ## Two operands -/

/-- The rows of an unbound union are the union of what its operands hold. -/
theorem Holding.union_pair (hq : s.Holding n T q) (hr : s.Holding n U r) (id : Nat) :
    s.Holding n (T ∪ U) (.union id ([q, r].map Relation.identityView)) := by
  have htabular : ∀ r' ∈ [q, r], s.Tabular n r' := by simp [hq.tabular, hr.tabular]
  refine ⟨.union (by simp) htabular, fun t => ?_⟩
  rw [mem_rows_union_unbound (by simp) htabular, Set.mem_union, ← hq.mem_rows, ← hr.mem_rows]
  simp

/-- The rows of an unbound intersection are what its operands hold in common. -/
theorem Holding.intersection_pair (hq : s.Holding n T q) (hr : s.Holding n U r) (id : Nat) :
    s.Holding n (T ∩ U) (.intersection id ([q, r].map Relation.identityView)) := by
  have htabular : ∀ r' ∈ [q, r], s.Tabular n r' := by simp [hq.tabular, hr.tabular]
  refine ⟨.intersection (by simp) htabular, fun t => ?_⟩
  rw [mem_rows_intersection_unbound (by simp) htabular, Set.mem_inter_iff, ← hq.mem_rows,
    ← hr.mem_rows]
  simp

theorem Holding.accepts_iff (h : s.Holding n T r) (hd : r.isDerived = true) (t : Tuple) :
    s.accepts r t = true ↔ t ∈ T :=
  (h.tabular.accepts_iff hd).trans (h.mem_rows t)

theorem Holding.literal (h : s.Holding n T r) (hr : s.Built r) (hd : r.isDerived = true) :
    s.Literal n T r :=
  ⟨h, hr, h.accepts_iff hd⟩

/-! ## Complements -/

/-- The complement of a relation that accepts its rows only holds the other rows that the registry
has of its arity, whether or not the registry lists the relation itself. -/
theorem Literal.complement (hs : s.Valid) (h : s.Literal n T r) (id : Nat) (registry : String) :
    s.Holding n ({t | s.Registered registry n t} \ T) (.complement id r.identityView registry) := by
  have harity : r.arity = n := h.tabular.arity
  have hrows : ∀ t, t ∈ (s.rows (.complement id r.identityView registry)).rows ↔
      t ∈ {t | s.Registered registry n t} \ T := by
    intro t
    rw [mem_rows_complement hs h.built.identityView, complements_identityView hs,
      Set.mem_sdiff, Set.mem_ofPred_eq, ← h.accepts_iff, Bool.not_eq_true, ← harity]
    refine ⟨fun ⟨hambient, hrejects⟩ => ⟨hambient.registered, hrejects⟩, ?_⟩
    rintro ⟨hregistered, hrejects⟩
    rcases accepts_or_ambient hs h.built hregistered with haccepts | hambient
    · rw [haccepts] at hrejects
      cases hrejects
    · exact ⟨hambient, hrejects⟩
  refine ⟨⟨arity_complement_identityView.trans harity, fun t ht => ?_,
    hs.exact_complement h.built.identityView⟩, hrows⟩
  obtain ⟨⟨b, hb, hbn, hrow⟩, -⟩ := (hrows t).mp ht
  rw [hs.length_of_mem_extension (hs.registered hb) hrow, hbn]

/-! ## The laws -/

/-- Whether the complement of one combination of two unbound relations and another combination of
their complements can be built, and both hold and accept just the tuples of a set. The number of the
first combination must not be that of a stored relation. -/
def Dual (s : Store) (registry : String) (inner outer : Combinator) (q r : Relation)
    (T : Set Tuple) : Prop :=
  ∀ number number', s.Reserves (number 0) →
    ∃ p p', Relation.complementOf number registry inner q r = .ok p ∧
      Relation.ofComplements number' registry outer q r = .ok p' ∧
      s.Same p p' ∧ ∀ t, (s.accepts p t = true ↔ t ∈ T) ∧ (t ∈ (s.rows p).rows ↔ t ∈ T)

/-- Two derived relations that hold the same set have the same rows and the same members. -/
theorem Holding.same {p' : Relation} (h : s.Holding n T p) (h' : s.Holding n T p')
    (hd : p.isDerived = true) (hd' : p'.isDerived = true) : s.Same p p' := by
  have hrows : ∀ t, t ∈ (s.rows p).rows ↔ t ∈ (s.rows p').rows := fun t =>
    (h.mem_rows t).trans (h'.mem_rows t).symm
  intro t
  rw [h.tabular.accepts_iff hd, h'.tabular.accepts_iff hd']
  exact ⟨hrows t, hrows t⟩

theorem Literal.complement_union (hs : s.Valid) (hq : s.Literal n T q) (hr : s.Literal n U r)
    (registry : String) :
    s.Dual registry .union .intersection q r ({t | s.Registered registry n t} \ (T ∪ U)) := by
  intro number number' hid
  have hderive : Relation.derive (number 0) .union ([q, r].map Relation.identityView) registry =
      .ok (.union (number 0) ([q, r].map Relation.identityView)) := rfl
  have hunion := (hq.union_pair hr.toHolding (number 0)).literal
    (.derive_unbound hid (by simp [hq.built, hr.built]) hderive) rfl
  have hcomplement := hunion.complement hs (number 1) registry
  have hmeet := (hq.complement hs (number' 0) registry).intersection_pair
    (hr.complement hs (number' 1) registry) (number' 2)
  rw [Set.sdiff_inter_sdiff] at hmeet
  exact ⟨_, _, rfl, rfl, hcomplement.same hmeet rfl rfl, fun t =>
    ⟨hcomplement.accepts_iff rfl t, hcomplement.mem_rows t⟩⟩

/-- The second law for operands that are read literally, with the set both of its sides hold. -/
theorem Literal.complement_intersection (hs : s.Valid) (hq : s.Literal n T q)
    (hr : s.Literal n U r) (registry : String) :
    s.Dual registry .intersection .union q r ({t | s.Registered registry n t} \ (T ∩ U)) := by
  intro number number' hid
  have hderive : Relation.derive (number 0) .intersection ([q, r].map Relation.identityView)
      registry = .ok (.intersection (number 0) ([q, r].map Relation.identityView)) := rfl
  have hmeet := (hq.intersection_pair hr.toHolding (number 0)).literal
    (.derive_unbound hid (by simp [hq.built, hr.built]) hderive) rfl
  have hcomplement := hmeet.complement hs (number 1) registry
  have hunion := (hq.complement hs (number' 0) registry).union_pair
    (hr.complement hs (number' 1) registry) (number' 2)
  rw [← Set.sdiff_inter] at hunion
  exact ⟨_, _, rfl, rfl, hcomplement.same hunion rfl rfl, fun t =>
    ⟨hcomplement.accepts_iff rfl t, hcomplement.mem_rows t⟩⟩

/-- Stored relations of one arity that declare no inducer, listed in a registry or not, satisfy the
laws of De Morgan in it. Both sides of a law accept, and equally enumerate, the rows of the registry
that have this arity and are in neither relation, or not in both. -/
theorem deMorgan_of_holds (hs : s.Reachable) (hb : s.Holds b) (hc : s.Holds c)
    (harity : c.arity = b.arity) (hbi : b.properties.inducers = [])
    (hci : c.properties.inducers = []) (registry : String) :
    s.Dual registry .union .intersection (.base b) (.base c)
        ({t | s.Registered registry b.arity t} \
          ({t | t ∈ (s.extension b).rows} ∪ {t | t ∈ (s.extension c).rows})) ∧
      s.Dual registry .intersection .union (.base b) (.base c)
        ({t | s.Registered registry b.arity t} \
          ({t | t ∈ (s.extension b).rows} ∩ {t | t ∈ (s.extension c).rows})) := by
  have hliteral := hs.valid.literal_base hb hbi
  have hliteral' := harity ▸ hs.valid.literal_base hc hci
  exact ⟨hliteral.complement_union hs.valid hliteral' registry,
    hliteral.complement_intersection hs.valid hliteral' registry⟩

end Store

namespace Session

/-- The requests of an example with three relations of one arity, of which a registry lists two. One
row of theirs is in all three, and one is only in the relation that is not listed. -/
def lendingRequests : List Request :=
  [.act (.declareBinary "owns" { irreflexive := true, asymmetric := true } (some "main"))
      (some "owns"),
   .act (.declare "borrows" 2 none) (some "borrows"),
   .act (.declare "wants" 2 (some "main")) (some "wants"),
   .act (.addAll "owns" [[.text "ann", .text "boat"], [.text "bob", .text "bike"]]) none,
   .act (.addAll "borrows" [[.text "ann", .text "boat"], [.text "bob", .text "boat"]]) none,
   .act (.addAll "wants" [[.text "ann", .text "boat"], [.text "ann", .text "bike"],
      [.text "bob", .text "bike"]]) none,
   .act (.deriveUnbound .union ["owns", "borrows"] "main") (some "has")]

def lending : Session := (empty.run lendingRequests).2

theorem reachable_lending : lending.store.Reachable := ⟨lendingRequests, rfl⟩

def lendingOwns : Base where
  name := "owns"
  arity := 2
  properties := { irreflexive := true, asymmetric := true }
  id := 0

def lendingBorrows : Base := { name := "borrows", arity := 2, id := 1 }

theorem holds_lendingOwns : lending.store.Holds lendingOwns := rfl

theorem holds_lendingBorrows : lending.store.Holds lendingBorrows := rfl

end Session

namespace Store

/-- One registered row is in neither relation and two are missing in one of them. The third is in
both. -/
theorem deMorgan_of_holds_lending :
    (∃ p p', Relation.complementOf (fun _ => 3) "main" .union
          (.base Session.lendingOwns) (.base Session.lendingBorrows) = .ok p ∧
        Relation.ofComplements (fun _ => 4) "main" .intersection
          (.base Session.lendingOwns) (.base Session.lendingBorrows) = .ok p' ∧
        Session.lending.store.Same p p' ∧
        (Session.lending.store.rows p).rows = [[.text "ann", .text "bike"]]) ∧
      ∃ p p', Relation.complementOf (fun _ => 3) "main" .intersection
          (.base Session.lendingOwns) (.base Session.lendingBorrows) = .ok p ∧
        Relation.ofComplements (fun _ => 4) "main" .union
          (.base Session.lendingOwns) (.base Session.lendingBorrows) = .ok p' ∧
        Session.lending.store.Same p p' ∧
        (Session.lending.store.rows p).rows =
          [[.text "bob", .text "bike"], [.text "ann", .text "bike"]] := by
  have hreserved : Session.lending.store.Reserves 3 := ⟨by decide, rfl⟩
  obtain ⟨hunion, hintersection⟩ := deMorgan_of_holds Session.reachable_lending
    Session.holds_lendingOwns Session.holds_lendingBorrows rfl rfl rfl "main"
  obtain ⟨p, p', hp, hp', hsame, -⟩ := hunion (fun _ => 3) (fun _ => 4) hreserved
  obtain ⟨q, q', hq, hq', hsame', -⟩ := hintersection (fun _ => 3) (fun _ => 4) hreserved
  refine ⟨⟨p, p', hp, hp', hsame, ?_⟩, ⟨q, q', hq, hq', hsame', ?_⟩⟩
  · obtain rfl := Except.ok.inj hp
    decide
  · obtain rfl := Except.ok.inj hq
    decide

end Store

end RelationAlgebra
