import RelationAlgebra.Derivation
import RelationAlgebra.Evaluation
import RelationAlgebra.Proofs.Store

/-!
# Relations over a store

The relations of a store are its stored relations and whatever the combinators build of these, to any
depth. A proof about all of them goes by induction on the construction (`Store.Built.induction`),
with one case for each combinator.
-/

namespace RelationAlgebra

/-- The plain binary relations that composition and converse take. -/
def View.IsPlainBinary (v : View) : Prop := v.relation.arity = 2 ∧ v.slots.isIdentity = true

namespace Relation

variable {id : Nat} {combinator : Combinator} {views : List View} {registry : String} {r : Relation}

/-- Composition and converse take plain binary relations and nothing else. -/
theorem binaryOperand_eq_ok_iff {v : View} :
    binaryOperand combinator v = .ok r ↔ v.IsPlainBinary ∧ r = v.relation := by
  unfold binaryOperand View.IsPlainBinary
  by_cases harity : v.relation.arity = 2
  · cases hslots : v.slots.isIdentity <;> simp [harity, eq_comm]
  · simp [harity]

/-- What each combinator builds, and of which operands. -/
theorem derive_cases (h : derive id combinator views registry = .ok r) :
    (combinator = .union ∧ views ≠ [] ∧ r = .union id views) ∨
    (combinator = .intersection ∧ views ≠ [] ∧ r = .intersection id views) ∨
    (∃ v, combinator = .complement ∧ views = [v] ∧ r = .complement id v registry) ∨
    (∃ v w, combinator = .composition ∧ views = [v, w] ∧ v.IsPlainBinary ∧ w.IsPlainBinary ∧
      r = .composition id v.relation w.relation) ∨
    (∃ v, combinator = .converse ∧ views = [v] ∧ v.IsPlainBinary ∧
      r = .converse id v.relation) := by
  cases combinator with
  | union =>
    cases views with
    | nil => cases h
    | cons v views => exact Or.inl ⟨rfl, by simp, (Except.ok.inj h).symm⟩
  | intersection =>
    cases views with
    | nil => cases h
    | cons v views => exact Or.inr (Or.inl ⟨rfl, by simp, (Except.ok.inj h).symm⟩)
  | complement =>
    match views, h with
    | [v], h => exact Or.inr (Or.inr (Or.inl ⟨v, rfl, rfl, (Except.ok.inj h).symm⟩))
  | composition =>
    match views, h with
    | [v, w], h =>
      obtain ⟨first, hfirst, h⟩ := bind_eq_ok_iff.mp h
      obtain ⟨second, hsecond, h⟩ := bind_eq_ok_iff.mp h
      obtain ⟨hv, rfl⟩ := binaryOperand_eq_ok_iff.mp hfirst
      obtain ⟨hw, rfl⟩ := binaryOperand_eq_ok_iff.mp hsecond
      exact Or.inr (Or.inr (Or.inr (Or.inl ⟨v, w, rfl, rfl, hv, hw, (Except.ok.inj h).symm⟩)))
  | converse =>
    match views, h with
    | [v], h =>
      obtain ⟨relation, hrelation, h⟩ := bind_eq_ok_iff.mp h
      obtain ⟨hv, rfl⟩ := binaryOperand_eq_ok_iff.mp hrelation
      exact Or.inr (Or.inr (Or.inr (Or.inr ⟨v, rfl, rfl, hv, (Except.ok.inj h).symm⟩)))

theorem derive_union (h : views ≠ []) :
    derive id .union views registry = .ok (.union id views) := by
  cases views with
  | nil => exact absurd rfl h
  | cons => rfl

theorem derive_intersection (h : views ≠ []) :
    derive id .intersection views registry = .ok (.intersection id views) := by
  cases views with
  | nil => exact absurd rfl h
  | cons => rfl

/-- A relation is bound as listed, by as many bindings as it has slots. -/
theorem view_of_bind {slots : Slots} {v : View} (h : r.bind slots = .ok v) :
    slots.length = r.arity ∧ v = ⟨r, slots⟩ := by
  unfold bind at h
  split at h
  next hlen => exact ⟨hlen, (Except.ok.inj h).symm⟩
  next => cases h

/-- The operands of a composition: the second slot of the first and the first slot of the second
carry the variable that is not an output column. -/
def compositionViews (first second : Relation) : List View :=
  [⟨first, [.var (.index 0), .var (.index 1)]⟩, ⟨second, [.var (.index 1), .var (.index 2)]⟩]

/-- The operand of a converse. -/
def converseViews (relation : Relation) : List View :=
  [⟨relation, [.var (.index 0), .var (.index 1)]⟩]

end Relation

namespace Store

variable {s s' : Store} {r : Relation}

/-- The relations over a store: those that it holds, and those that a combinator builds of bound
relations over it, with one binding for each slot and under a number of its own. -/
inductive Built (s : Store) : Relation → Prop where
  /-- A stored relation. -/
  | base {b : Base} (h : s.Holds b) : s.Built (.base b)
  /-- A derived relation. -/
  | derive {id : Nat} {combinator : Combinator} {views : List View} {registry : String}
      {r : Relation} (hid : s.Reserves id) (hviews : ∀ v ∈ views, s.Built v.relation)
      (hslots : ∀ v ∈ views, v.slots.length = v.relation.arity)
      (h : Relation.derive id combinator views registry = .ok r) : s.Built r

theorem Built.holds {b : Base} (h : s.Built (.base b)) : s.Holds b := by
  cases h with
  | base h => exact h
  | derive _ _ _ h =>
    rcases Relation.derive_cases h with ⟨-, -, h⟩ | ⟨-, -, h⟩ | ⟨v, -, -, h⟩ |
      ⟨v, w, -, -, -, -, h⟩ | ⟨v, -, -, -, h⟩
    all_goals cases h

/-- A relation stays built as the store grows. -/
theorem Built.mono (hs : s.Grows s') (h : s.Built r) : s'.Built r := by
  induction h with
  | base h => exact .base (hs.holds h)
  | derive hid _ hslots h ih => exact .derive (hs.reserves hid) ih hslots h

/-- A bound relation over a store, with one binding for each slot. -/
structure BuiltView (s : Store) (v : View) : Prop where
  relation : s.Built v.relation
  slots : v.slots.length = v.relation.arity

theorem BuiltView.mono {v : View} (hs : s.Grows s') (h : s.BuiltView v) : s'.BuiltView v :=
  ⟨h.relation.mono hs, h.slots⟩

/-- A relation without bindings is an operand like any other. -/
theorem Built.identityView (h : s.Built r) : s.BuiltView r.identityView :=
  ⟨h, by simp [Relation.identityView, Slots.identity]⟩

theorem Built.bind {slots : Slots} {v : View} (h : s.Built r) (hv : r.bind slots = .ok v) :
    s.BuiltView v := by
  obtain ⟨hlen, rfl⟩ := Relation.view_of_bind hv
  exact ⟨h, hlen⟩

/-- Induction over the relations of a store, by the combinator at the top. Composition and converse
are given by the operands that their search goes through. -/
@[elab_as_elim]
theorem Built.induction {motive : Relation → Prop}
    (base : ∀ b, s.Holds b → motive (.base b))
    (union : ∀ id views,
      (∀ v ∈ views, s.BuiltView v ∧ motive v.relation) →
      motive (.union id views))
    (intersection : ∀ id views,
      (∀ v ∈ views, s.BuiltView v ∧ motive v.relation) →
      motive (.intersection id views))
    (complement : ∀ id v registry, s.BuiltView v → motive v.relation →
      motive (.complement id v registry))
    (composition : ∀ id first second,
      (∀ v ∈ Relation.compositionViews first second, s.BuiltView v ∧ motive v.relation) →
      motive (.composition id first second))
    (converse : ∀ id relation,
      (∀ v ∈ Relation.converseViews relation, s.BuiltView v ∧ motive v.relation) →
      motive (.converse id relation))
    (h : s.Built r) : motive r := by
  induction h with
  | base h => exact base _ h
  | derive _ hbuilt hslots h ih =>
    have hviews := fun v hv =>
      And.intro (BuiltView.mk (hbuilt v hv) (hslots v hv)) (ih v hv)
    rcases Relation.derive_cases h with ⟨-, -, rfl⟩ | ⟨-, -, rfl⟩ | ⟨v, -, rfl, rfl⟩ |
      ⟨v, w, -, rfl, hv, hw, rfl⟩ | ⟨v, -, rfl, hv, rfl⟩
    · exact union _ _ hviews
    · exact intersection _ _ hviews
    · exact complement _ _ _ (hviews v (by simp)).1 (hviews v (by simp)).2
    · refine composition _ _ _ ?_
      simp only [Relation.compositionViews, List.forall_mem_cons]
      exact ⟨⟨⟨hbuilt v (by simp), hv.1.symm⟩, ih v (by simp)⟩,
        ⟨⟨hbuilt w (by simp), hw.1.symm⟩, ih w (by simp)⟩, by simp⟩
    · refine converse _ _ ?_
      simp only [Relation.converseViews, List.forall_mem_cons]
      exact ⟨⟨⟨hbuilt v (by simp), hv.1.symm⟩, ih v (by simp)⟩, by simp⟩

/-- Deriving takes the next number and leaves the rest of the store as it is. -/
theorem derive_eq_ok_iff {combinator : Combinator} {views : List View} {registry : String} :
    s.derive combinator views registry = .ok (r, s') ↔
      Relation.derive s.next combinator views registry = .ok r ∧
        s' = { s with next := s.next + 1 } := by
  rw [derive, bind_eq_ok_iff]
  constructor
  · rintro ⟨r', hr, h⟩
    obtain ⟨rfl, rfl⟩ := Prod.mk.inj (Except.ok.inj h)
    exact ⟨hr, rfl⟩
  · rintro ⟨hr, rfl⟩
    exact ⟨r, hr, rfl⟩

/-- Deriving a relation reserves its number and leaves the rest of the store as it is. -/
theorem Valid.derive {combinator : Combinator} {views : List View} {registry : String}
    (hs : s.Valid) (hviews : ∀ v ∈ views, s.BuiltView v)
    (h : s.derive combinator views registry = .ok (r, s')) :
    s'.Valid ∧ s.Grows s' ∧ s'.Built r := by
  obtain ⟨hr, rfl⟩ := derive_eq_ok_iff.mp h
  have hgrows : s.Grows { s with next := s.next + 1 } :=
    ⟨fun h => h, fun h => ⟨Nat.lt_succ_of_lt h.1, h.2⟩⟩
  refine ⟨⟨hs.extension, fun h => Nat.lt_succ_of_lt (hs.next h),
    fun h => hgrows.holds (hs.registered h)⟩, hgrows, ?_⟩
  exact .derive ⟨Nat.lt_succ_self _, hs.lookup_next⟩ (fun v hv => (hviews v hv).relation.mono hgrows)
    (fun v hv => (hviews v hv).slots) hr

end Store

end RelationAlgebra
