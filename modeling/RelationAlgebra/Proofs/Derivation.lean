import Mathlib.Data.Finset.Card
import RelationAlgebra.Proofs.Termination

/-!
# Which operands a combinator takes

A relation can be derived of bound relations if the combinator takes them (`Combinator.Takes`):
union and intersection take one operand or more, the complement takes one, and composition and
converse take two and one that are binary and bound place by place. Otherwise the combinator refuses
the operands by its name (`Session.derives_iff_takes`).

A composition binds its operands anew, so that they share the variable of the middle atom. Binding
may fail elsewhere, but never does here (`Relation.derive_or_refuse`).
-/

namespace RelationAlgebra

/-- Whether a relation is binary and has slot `i` bound to the positional variable `i`. -/
def View.IsPlaced (v : View) : Prop :=
  v.relation.arity = 2 ∧ ∀ i < 2, v.slots[i]? = some (.var (.index i))

/-- Whether bound relations are operands for a combinator. -/
def Combinator.Takes (combinator : Combinator) (views : List View) : Prop :=
  match combinator with
  | .union | .intersection => 1 ≤ views.length
  | .complement => views.length = 1
  | .composition => views.length = 2 ∧ ∀ v ∈ views, v.IsPlaced
  | .converse => views.length = 1 ∧ ∀ v ∈ views, v.IsPlaced

/-- What a relation is put together of when it is derived. -/
structure Plan where
  name : String
  /-- The operands, as they are joined. -/
  operands : List View
  /-- The variables that label the output columns. -/
  output : List Var

/-- What is put together of the operands of a combinator. Those of a composition are bound anew. -/
def Plan.make (combinator : Combinator) (views : List View) : Except RelationError Plan :=
  let refuse {α : Type} (fault : OperandFault) : Except RelationError α :=
    .error (.unsupportedCombinator combinator fault)
  let names := views.map fun v => v.relation.name
  match combinator, views with
  | .union, [] | .intersection, [] => refuse .missing
  | .union, views => .ok ⟨"_or_".intercalate names, views, Bound.correspondence views⟩
  | .intersection, views => .ok ⟨"_and_".intercalate names, views, Bound.correspondence views⟩
  | .complement, [v] => .ok ⟨"not_" ++ v.relation.name, [v], Bound.correspondence [v]⟩
  | .composition, [v, w] => do
    let first ← Relation.binaryOperand combinator v
    let second ← Relation.binaryOperand combinator w
    let left ← first.bind [.var (.index 0), .var (.index 1)]
    let right ← second.bind [.var (.index 1), .var (.index 2)]
    return ⟨first.name ++ "_then_" ++ second.name, [left, right], [.index 0, .index 2]⟩
  | .converse, [v] => do
    let relation ← Relation.binaryOperand combinator v
    return ⟨"converse_of_" ++ relation.name, [relation.identityView], [.index 1, .index 0]⟩
  | .complement, views | .converse, views => refuse (.count 1 views.length)
  | .composition, views => refuse (.count 2 views.length)

namespace Relation

variable {id : Nat} {combinator : Combinator} {views : List View} {registry : String} {r : Relation}
  {v : View}

/-- The variables that label the output columns of a derived relation. -/
def output : Relation → List Var
  | base _ => []
  | union _ views | intersection _ views => Bound.correspondence views
  | complement _ v _ => Bound.correspondence [v]
  | composition .. => compositionOutput
  | converse .. => converseOutput

/-- What a derived relation is put together of. -/
def plan (r : Relation) : Plan := ⟨r.name, r.operands, r.output⟩

theorem operandNames_eq (views : List View) :
    operandNames views = views.map fun v => v.relation.name := by
  rw [operandNames_eq_map]
  exact List.map_congr_left fun v _ => by rw [operandName]

theorem plan_union (id : Nat) (views : List View) :
    (union id views).plan =
      ⟨"_or_".intercalate (views.map fun v => v.relation.name), views,
        Bound.correspondence views⟩ := by
  rw [plan, name, operandNames_eq]
  rfl

theorem plan_intersection (id : Nat) (views : List View) :
    (intersection id views).plan =
      ⟨"_and_".intercalate (views.map fun v => v.relation.name), views,
        Bound.correspondence views⟩ := by
  rw [plan, name, operandNames_eq]
  rfl

theorem plan_complement (id : Nat) (v : View) (registry : String) :
    (complement id v registry).plan =
      ⟨"not_" ++ v.relation.name, [v], Bound.correspondence [v]⟩ := by
  rw [plan, name, operandName]
  rfl

theorem plan_composition (id : Nat) (q r : Relation) :
    (composition id q r).plan =
      ⟨q.name ++ "_then_" ++ r.name, compositionViews q r, compositionOutput⟩ := by
  rw [plan, name]
  rfl

theorem plan_converse (id : Nat) (r : Relation) :
    (converse id r).plan = ⟨"converse_of_" ++ r.name, converseViews r, converseOutput⟩ := by
  rw [plan, name]
  rfl

theorem bind_eq_ok {slots : Slots} (h : slots.length = r.arity) : r.bind slots = .ok ⟨r, slots⟩ :=
  if_pos h

/-- An operand of a composition or a converse is either its plain binary relation or a fault. -/
theorem binaryOperand_cases (combinator : Combinator) (v : View) :
    (v.relation.arity = 2 ∧ binaryOperand combinator v = .ok v.relation) ∨
      ∃ fault, binaryOperand combinator v = .error (.unsupportedCombinator combinator fault) := by
  unfold binaryOperand
  split
  · exact Or.inr ⟨_, rfl⟩
  next harity =>
    split
    · exact Or.inr ⟨_, rfl⟩
    · exact Or.inl ⟨of_not_not harity, rfl⟩

theorem derive_composition_of_ok {q r : Relation} {w : View}
    (hv : binaryOperand .composition v = .ok q) (hw : binaryOperand .composition w = .ok r) :
    derive id .composition [v, w] registry = .ok (composition id q r) := by
  simp only [derive, hv, hw]
  rfl

theorem derive_converse_of_ok (hv : binaryOperand .converse v = .ok r) :
    derive id .converse [v] registry = .ok (converse id r) := by
  simp only [derive, hv]
  rfl

/-- The plan of a composition is read off the relation that is derived. -/
theorem make_composition_of_ok {q r : Relation} {w : View}
    (hv : binaryOperand .composition v = .ok q) (hw : binaryOperand .composition w = .ok r)
    (hq : q.arity = 2) (hr : r.arity = 2) :
    Plan.make .composition [v, w] = .ok (composition id q r).plan := by
  have hmake : Plan.make .composition [v, w] =
      (do
        let left ← q.bind [.var (.index 0), .var (.index 1)]
        let right ← r.bind [.var (.index 1), .var (.index 2)]
        return ⟨q.name ++ "_then_" ++ r.name, [left, right], compositionOutput⟩) := by
    simp only [Plan.make, hv, hw]
    rfl
  have hleft : q.bind [.var (.index 0), .var (.index 1)] =
      .ok ⟨q, [.var (.index 0), .var (.index 1)]⟩ := bind_eq_ok hq.symm
  have hright : r.bind [.var (.index 1), .var (.index 2)] =
      .ok ⟨r, [.var (.index 1), .var (.index 2)]⟩ := bind_eq_ok hr.symm
  rw [hmake, hleft, hright, plan_composition]
  rfl

theorem make_converse_of_ok (hv : binaryOperand .converse v = .ok r) (hr : r.arity = 2) :
    Plan.make .converse [v] = .ok (converse id r).plan := by
  have hmake : Plan.make .converse [v] =
      .ok ⟨"converse_of_" ++ r.name, [r.identityView], converseOutput⟩ := by
    simp only [Plan.make, hv]
    rfl
  have hview : [r.identityView] = converseViews r := by
    rw [identityView, hr]
    rfl
  rw [hmake, hview, plan_converse]

/-- A relation is put together as planned, or the combinator refuses the operands by its name.
Binding operands anew does not fail, since by then they are known to be binary. -/
theorem derive_or_refuse (id : Nat) (combinator : Combinator) (views : List View)
    (registry : String) :
    (∃ r, derive id combinator views registry = .ok r ∧ Plan.make combinator views = .ok r.plan) ∨
      ∃ fault,
        derive id combinator views registry = .error (.unsupportedCombinator combinator fault) ∧
        Plan.make combinator views = .error (.unsupportedCombinator combinator fault) := by
  cases combinator with
  | union =>
    cases views with
    | nil => exact Or.inr ⟨_, rfl, rfl⟩
    | cons v views =>
      have hplan := plan_union id (v :: views)
      exact Or.inl ⟨_, rfl, hplan ▸ rfl⟩
  | intersection =>
    cases views with
    | nil => exact Or.inr ⟨_, rfl, rfl⟩
    | cons v views =>
      have hplan := plan_intersection id (v :: views)
      exact Or.inl ⟨_, rfl, hplan ▸ rfl⟩
  | complement =>
    match views with
    | [] | _ :: _ :: _ => exact Or.inr ⟨_, rfl, rfl⟩
    | [v] =>
      have hplan := plan_complement id v registry
      exact Or.inl ⟨_, rfl, hplan ▸ rfl⟩
  | composition =>
    match views with
    | [] | [_] | _ :: _ :: _ :: _ => exact Or.inr ⟨_, rfl, rfl⟩
    | [v, w] =>
      rcases binaryOperand_cases .composition v with ⟨hv, heq⟩ | ⟨fault, heq⟩
      · rcases binaryOperand_cases .composition w with ⟨hw, heq'⟩ | ⟨fault, heq'⟩
        · exact Or.inl ⟨_, derive_composition_of_ok heq heq', make_composition_of_ok heq heq' hv hw⟩
        · refine Or.inr ⟨fault, ?_⟩
          simp only [derive, Plan.make, heq, heq']
          exact ⟨rfl, rfl⟩
      · refine Or.inr ⟨fault, ?_⟩
        simp only [derive, Plan.make, heq]
        exact ⟨rfl, rfl⟩
  | converse =>
    match views with
    | [] | _ :: _ :: _ => exact Or.inr ⟨_, rfl, rfl⟩
    | [v] =>
      rcases binaryOperand_cases .converse v with ⟨hv, heq⟩ | ⟨fault, heq⟩
      · exact Or.inl ⟨_, derive_converse_of_ok heq, make_converse_of_ok heq hv⟩
      · refine Or.inr ⟨fault, ?_⟩
        simp only [derive, Plan.make, heq]
        exact ⟨rfl, rfl⟩

/-- Names, operands and output columns of a derived relation are planned before it gets a number,
and its registry plays no part in them. -/
theorem plan_derive (id : Nat) (combinator : Combinator) (views : List View) (registry : String) :
    (derive id combinator views registry).map plan = Plan.make combinator views := by
  rcases derive_or_refuse id combinator views registry with ⟨r, hr, hplan⟩ | ⟨fault, hr, hplan⟩
  · rw [hr, hplan]
    rfl
  · rw [hr, hplan]
    rfl

/-! ## Acceptance -/

/-- A binary relation whose columns are bound in place has the two positional slots. -/
theorem slots_of_isPlaced (hv : v.slots.length = v.relation.arity) (h : v.IsPlaced) :
    v.slots = [.var (.index 0), .var (.index 1)] := by
  obtain ⟨harity, hslots⟩ := h
  obtain ⟨b, c, heq⟩ := List.length_eq_two.mp (hv.trans harity)
  rw [heq] at hslots ⊢
  have hb := Option.some.inj (hslots 0 (by decide))
  have hc := Option.some.inj (hslots 1 (by decide))
  rw [hb, hc]

/-- To compare the slots with the positional ones is to look at each column for its own variable. -/
theorem isPlainBinary_iff (hv : v.slots.length = v.relation.arity) :
    v.IsPlainBinary ↔ v.IsPlaced := by
  constructor
  · rintro ⟨harity, hslots⟩
    have heq : v.slots = Slots.identity 2 := by
      rw [← harity, ← hv]
      exact eq_of_beq hslots
    refine ⟨harity, fun i hi => ?_⟩
    rw [heq]
    match i, hi with
    | 0, _ => rfl
    | 1, _ => rfl
  · intro h
    refine ⟨h.1, ?_⟩
    rw [slots_of_isPlaced hv h]
    rfl

theorem binaryOperand_of_isPlaced (hv : v.slots.length = v.relation.arity) (h : v.IsPlaced) :
    binaryOperand combinator v = .ok v.relation :=
  binaryOperand_eq_ok_iff.mpr ⟨(isPlainBinary_iff hv).mpr h, rfl⟩

/-- A relation can be derived of bound relations if the combinator takes them. -/
theorem exists_derive_iff (hviews : ∀ v ∈ views, v.slots.length = v.relation.arity) :
    (∃ r, derive id combinator views registry = .ok r) ↔ combinator.Takes views := by
  constructor
  · rintro ⟨r, h⟩
    rcases derive_cases h with ⟨rfl, hne, -⟩ | ⟨rfl, hne, -⟩ | ⟨v, rfl, rfl, -⟩ |
      ⟨v, w, rfl, rfl, hv, hw, -⟩ | ⟨v, rfl, rfl, hv, -⟩
    · exact List.length_pos_of_ne_nil hne
    · exact List.length_pos_of_ne_nil hne
    · exact rfl
    · rw [isPlainBinary_iff (hviews _ (by simp))] at hv hw
      exact ⟨rfl, by simp [hv, hw]⟩
    · rw [isPlainBinary_iff (hviews _ (by simp))] at hv
      exact ⟨rfl, by simp [hv]⟩
  · intro h
    cases combinator with
    | union => exact ⟨_, derive_union (List.ne_nil_of_length_pos h)⟩
    | intersection => exact ⟨_, derive_intersection (List.ne_nil_of_length_pos h)⟩
    | complement =>
      obtain ⟨v, rfl⟩ := List.length_eq_one_iff.mp h
      exact ⟨_, rfl⟩
    | composition =>
      obtain ⟨hlen, hplaced⟩ := h
      obtain ⟨v, w, rfl⟩ := List.length_eq_two.mp hlen
      exact ⟨_, derive_composition_of_ok
        (binaryOperand_of_isPlaced (hviews v (by simp)) (hplaced v (by simp)))
        (binaryOperand_of_isPlaced (hviews w (by simp)) (hplaced w (by simp)))⟩
    | converse =>
      obtain ⟨hlen, hplaced⟩ := h
      obtain ⟨v, rfl⟩ := List.length_eq_one_iff.mp hlen
      exact ⟨_, derive_converse_of_ok
        (binaryOperand_of_isPlaced (hviews v (by simp)) (hplaced v (by simp)))⟩

/-- Only the complement needs a registry. -/
theorem derive_registry (hcombinator : combinator ≠ .complement) (other : String) :
    derive id combinator views other = derive id combinator views registry := by
  cases combinator with
  | complement => exact absurd rfl hcombinator
  | union | intersection => cases views <;> rfl
  | composition =>
    match views with
    | [] | [_] | [_, _] | _ :: _ :: _ :: _ => rfl
  | converse =>
    match views with
    | [] | [_] | _ :: _ :: _ => rfl

/-! ## What is derived -/

/-- No combinator gives a stored relation. -/
theorem isDerived_of_derive (h : derive id combinator views registry = .ok r) :
    r.isDerived = true := by
  rcases derive_cases h with ⟨-, -, rfl⟩ | ⟨-, -, rfl⟩ | ⟨v, -, -, rfl⟩ | ⟨v, w, -, -, -, -, rfl⟩ |
    ⟨v, -, -, -, rfl⟩ <;> rfl

/-- The number of distinct variables. -/
theorem length_correspondence (views : List View) :
    (Bound.correspondence views).length =
      ((views.flatMap Bound.slots).filterMap Binding.var?).toFinset.card := by
  rw [← List.toFinset_card_of_nodup (Bound.nodup_correspondence)]
  congr 1
  ext x
  simp [Bound.correspondence]

/-- A derived relation has a column for each variable of its operands. -/
theorem arity_of_derive (hviews : ∀ v ∈ views, v.slots.length = v.relation.arity)
    (h : derive id combinator views registry = .ok r) :
    r.arity = ((views.flatMap Bound.slots).filterMap Binding.var?).toFinset.card := by
  rcases derive_cases h with ⟨-, -, rfl⟩ | ⟨-, -, rfl⟩ | ⟨v, -, rfl, rfl⟩ |
    ⟨v, w, -, rfl, hv, hw, rfl⟩ | ⟨v, -, rfl, hv, rfl⟩
  · exact length_correspondence views
  · exact length_correspondence views
  · exact length_correspondence [v]
  · have hlen := hviews v (by simp)
    have hlen' := hviews w (by simp)
    have hslots := slots_of_isPlaced hlen ((isPlainBinary_iff hlen).mp hv)
    have hslots' := slots_of_isPlaced hlen' ((isPlainBinary_iff hlen').mp hw)
    simp only [List.flatMap_cons, List.flatMap_nil, hslots, hslots']
    rfl
  · have hlen := hviews v (by simp)
    have hslots := slots_of_isPlaced hlen ((isPlainBinary_iff hlen).mp hv)
    simp only [List.flatMap_cons, List.flatMap_nil, hslots]
    rfl

/-- Compositions and converses are binary. -/
theorem arity_eq_two_of_derive (hcombinator : combinator = .composition ∨ combinator = .converse)
    (h : derive id combinator views registry = .ok r) : r.arity = 2 := by
  rcases derive_cases h with ⟨rfl, -⟩ | ⟨rfl, -⟩ | ⟨v, rfl, -⟩ | ⟨v, w, -, -, -, -, rfl⟩ |
    ⟨v, -, -, -, rfl⟩
  · simp at hcombinator
  · simp at hcombinator
  · simp at hcombinator
  · rfl
  · rfl

end Relation

/-- A derived relation takes no tuples, whatever they are. -/
theorem Store.addAll_of_isDerived {r : Relation} (h : r.isDerived = true) (s : Store)
    (tuples : List Tuple) : s.addAll r tuples = .error (.readOnly r.name) := by
  cases r with
  | base b => cases h
  | union | intersection | complement | composition | converse => rfl

namespace Session

variable {s : Session} {combinator : Combinator} {views : List View} {registry : String}
  {r : Relation} {store : Store}

/-- The number of a new relation is above those of all that is registered. -/
theorem Valid.not_same_of_derive (hs : s.Valid)
    (h : s.store.derive combinator views registry = .ok (r, store)) {b : Base} {name : String}
    (hb : b ∈ store.registry name) : (Relation.base b).same r = false := by
  obtain ⟨hderive, rfl⟩ := Store.derive_eq_ok_iff.mp h
  have hlt : b.id < s.store.next := (Store.Built.base (hs.store.registered hb)).id_lt hs.store
  have hid : r.id = s.store.next := Relation.id_of_derive hderive
  rw [Relation.same, hid, beq_eq_false_iff_ne]
  exact Nat.ne_of_lt hlt

/-- In any reachable state, a relation can be derived of bound relations if the combinator takes
them, and otherwise the combinator refuses them. What is derived is put together as planned, in
whatever registry. It cannot be added to, no registry lists it, and it has a column for each variable
of its operands: two for compositions and converses, and none if there are no variables. -/
theorem derives_iff_takes (hs : s.Reached)
    (hviews : ∀ v ∈ views, v.slots.length = v.relation.arity) (combinator : Combinator)
    (registry : String) :
    ((∃ r store, s.store.derive combinator views registry = .ok (r, store)) ↔
      combinator.Takes views) ∧
    (¬ combinator.Takes views → ∃ fault, s.store.derive combinator views registry =
      .error (.unsupportedCombinator combinator fault)) ∧
    (s.store.derive combinator views registry).map (fun result => result.1.plan) =
      Plan.make combinator views ∧
    (combinator ≠ .complement → ∀ other,
      s.store.derive combinator views other = s.store.derive combinator views registry) ∧
    ∀ r store, s.store.derive combinator views registry = .ok (r, store) →
      (∀ (other : Store) tuples, other.addAll r tuples = .error (.readOnly r.name)) ∧
      store.registries = s.store.registries ∧
      (∀ name, ∀ b ∈ store.registry name, (Relation.base b).same r = false) ∧
      r.arity = ((views.flatMap Bound.slots).filterMap Binding.var?).toFinset.card ∧
      (combinator = .composition ∨ combinator = .converse → r.arity = 2) := by
  have hiff : (∃ r store, s.store.derive combinator views registry = .ok (r, store)) ↔
      combinator.Takes views := by
    have hbuilds : (∃ r, Relation.derive s.store.next combinator views registry = .ok r) ↔
        combinator.Takes views := Relation.exists_derive_iff hviews
    rw [← hbuilds]
    constructor
    · rintro ⟨r, store, h⟩
      exact ⟨r, (Store.derive_eq_ok_iff.mp h).1⟩
    · rintro ⟨r, h⟩
      exact ⟨r, _, Store.derive_eq_ok_iff.mpr ⟨h, rfl⟩⟩
  refine ⟨hiff, fun hno => ?_, ?_, fun hcombinator other => ?_, fun r store h => ?_⟩
  · rcases Relation.derive_or_refuse s.store.next combinator views registry with ⟨r, h, -⟩ |
      ⟨fault, h, -⟩
    · exact absurd (hiff.mp ⟨r, _, Store.derive_eq_ok_iff.mpr ⟨h, rfl⟩⟩) hno
    · refine ⟨fault, ?_⟩
      rw [Store.derive, h]
      rfl
  · rw [← Relation.plan_derive s.store.next combinator views registry, Store.derive]
    cases Relation.derive s.store.next combinator views registry <;> rfl
  · rw [Store.derive, Store.derive, Relation.derive_registry hcombinator other]
  · obtain ⟨hderive, hstore⟩ := Store.derive_eq_ok_iff.mp h
    have hderived := Relation.isDerived_of_derive hderive
    exact ⟨Store.addAll_of_isDerived hderived, by rw [hstore],
      fun name b hb => hs.valid.not_same_of_derive h hb, Relation.arity_of_derive hviews hderive,
      fun hcombinator => Relation.arity_eq_two_of_derive hcombinator hderive⟩

/-- The relation of parents, asked for one pair. -/
def kinshipParentOf : View :=
  ⟨.base kinshipParent, [.literal (.text "teresa"), .literal (.text "piotr")]⟩

/-- The relation of parents, bound to named variables that are shown as positional ones are. -/
def kinshipParentNamed : View :=
  ⟨.base kinshipParent, [.var (.named "#0"), .var (.named "#1")]⟩

theorem derives_iff_takes_kinshipParent :
    kinship.Reached ∧
      (∃ r store, kinship.store.derive .intersection [kinshipParentOf] "main" = .ok (r, store) ∧
        r.arity = 0 ∧ kinship.store.addAll r [[]] = .error (.readOnly "parent")) ∧
      kinshipParentNamed.display = (Relation.base kinshipParent).identityView.display ∧
      ∃ fault, kinship.store.derive .converse [kinshipParentNamed] "main" =
        .error (.unsupportedCombinator .converse fault) := by
  have hreached : kinship.Reached := reached_run .empty kinshipRequests
  have hof : ∀ v ∈ [kinshipParentOf], v.slots.length = v.relation.arity := by decide
  have hnamed : ∀ v ∈ [kinshipParentNamed], v.slots.length = v.relation.arity := by decide
  obtain ⟨haccepts, -, -, -, hderived⟩ := derives_iff_takes hreached hof .intersection "main"
  obtain ⟨-, hrefuses, -⟩ := derives_iff_takes hreached hnamed .converse "main"
  obtain ⟨r, store, h⟩ := haccepts.mpr (Nat.le_refl 1)
  obtain ⟨hreadOnly, -, -, harity, -⟩ := hderived r store h
  refine ⟨hreached, ⟨r, store, h, harity, ?_⟩, rfl, hrefuses ?_⟩
  · rw [hreadOnly]
    obtain ⟨hderive, -⟩ := Store.derive_eq_ok_iff.mp h
    obtain rfl := Except.ok.inj hderive
    rfl
  · rintro ⟨-, hplaced⟩
    have hslot := (hplaced kinshipParentNamed (List.mem_singleton_self _)).2 0 (by decide)
    cases hslot

end Session

end RelationAlgebra
