import Mathlib.Data.List.Count
import RelationAlgebra.Proofs.Pattern
import RelationAlgebra.Proofs.Union

/-!
# Wildcards as projections

A wildcard in place of a variable that labels one slot only leaves this slot free: a row then fits
just if it fits for some atom of the variable (`Slots.fits_blank_iff`). So its tuple is the one that
it gave before, without the column of the variable. Intersections and complements therefore hold the
same tuples without this column, and rows may come to coincide (`Store.wildcard_projects`). A
variable that labels several slots ties these together, which wildcards do not.
-/

namespace RelationAlgebra

/-- The binding with the wildcard in place of a variable. -/
def Binding.blank (A : Var) (b : Binding) : Binding := if b = .var A then .wildcard else b

namespace Binding

theorem blank_var (A : Var) : blank A (.var A) = .wildcard := if_pos rfl

theorem blank_of_ne {A : Var} {b : Binding} (h : b ≠ .var A) : blank A b = b := if_neg h

theorem var?_blank (A : Var) (b : Binding) : (blank A b).var? = b.var?.filter fun v => v != A := by
  by_cases h : b = .var A
  · simp [h, blank_var, var?, Option.filter]
  · rw [blank_of_ne h]
    cases b with
    | var v =>
      have hv : v ≠ A := fun e => h (e ▸ rfl)
      simp [var?, Option.filter, hv]
    | wildcard | literal => rfl

/-- What a slot with another binding may hold does not depend on the variable. -/
theorem holds_update_iff {A : Var} {b : Binding} (h : b ≠ .var A) {ν : Valuation} {a x : Atom} :
    b.Holds (Function.update ν A a) x ↔ b.Holds ν x := by
  cases b with
  | var v =>
    have hv : v ≠ A := fun e => h (e ▸ rfl)
    rw [Holds, Holds, Function.update_of_ne hv]
  | wildcard | literal => rfl

end Binding

namespace Slots

variable {slots : Slots} {A : Var} {ν : Valuation} {row : Tuple}

theorem map_blank_of_not_mem (h : .var A ∉ slots) : slots.map (Binding.blank A) = slots := by
  have hmap : slots.map (Binding.blank A) = slots.map id :=
    List.map_congr_left fun b hb => Binding.blank_of_ne fun e => h (e ▸ hb)
  rw [hmap, List.map_id]

/-- The atom of a variable that labels no slot does not matter. -/
theorem fits_update_iff (h : .var A ∉ slots) {a : Atom} :
    slots.Fits (Function.update ν A a) row ↔ slots.Fits ν row := by
  have hupdate : ∀ v, .var v ∈ slots → Function.update ν A a v = ν v := by
    intro v hv
    have hne : v ≠ A := fun e => h (e ▸ hv)
    exact Function.update_of_ne hne a ν
  exact ⟨fun hfit => hfit.congr fun v hv => (hupdate v hv).symm, fun hfit => hfit.congr hupdate⟩

/-- With a wildcard in place of a variable that labels one slot only, a row fits just if it fits for
some atom of the variable. -/
theorem fits_blank_iff (h : slots.count (.var A) ≤ 1) :
    Slots.Fits (slots.map (Binding.blank A)) ν row ↔
      ∃ a, slots.Fits (Function.update ν A a) row := by
  induction slots generalizing row with
  | nil => simp [Fits]
  | cons b slots ih =>
    cases row with
    | nil => simp [Fits]
    | cons x row =>
      rw [List.map_cons, fits_cons]
      simp only [fits_cons]
      by_cases hb : b = .var A
      · -- the atom is the one that the row has here, and no other slot restricts it
        have hno : .var A ∉ slots := by
          rw [hb, List.count_cons_self] at h
          exact List.count_eq_zero.mp (by omega)
        rw [hb, Binding.blank_var, map_blank_of_not_mem hno]
        simp only [fits_update_iff hno, Binding.Holds, Function.update_self, true_and,
          exists_eq_left]
      · rw [List.count_cons_of_ne hb] at h
        simp only [Binding.blank_of_ne hb, Binding.holds_update_iff hb, ih h, exists_and_left]

/-- A wildcard in place of a variable drops its column and leaves the others in order. -/
theorem vars_blank (slots : Slots) (A : Var) :
    Slots.vars (slots.map (Binding.blank A)) = slots.vars.erase A := by
  rw [vars_map (Binding.var?_blank A), (nodup_vars slots).erase_eq_filter]

/-- A row gives its tuple without the component of the column, if no other slot has the variable. -/
theorem tuple?_blank (h : slots.count (.var A) ≤ 1) (hlen : slots.length = row.length) :
    Slots.tuple? (slots.map (Binding.blank A)) row =
      (slots.tuple? row).bind fun t => some (t.eraseIdx (slots.vars.idxOf A)) := by
  refine Option.ext fun t => ?_
  rw [tuple?_eq_some_iff (by simpa using hlen), vars_blank, Option.bind_eq_some_iff]
  simp only [tuple?_eq_some_iff hlen, fits_blank_iff h, Option.some.injEq]
  constructor
  · rintro ⟨ν, ⟨a, hfit⟩, rfl⟩
    refine ⟨_, ⟨_, hfit, rfl⟩, ?_⟩
    rw [Tuple.eraseIdx_idxOf_map]
    refine List.map_congr_left fun v hv => ?_
    have hne : v ≠ A := fun e => (nodup_vars slots).not_mem_erase (e ▸ hv)
    exact Function.update_of_ne hne a ν
  · rintro ⟨_, ⟨ν, hfit, rfl⟩, rfl⟩
    refine ⟨ν, ⟨ν A, ?_⟩, Tuple.eraseIdx_idxOf_map ..⟩
    rwa [Function.update_eq_self]

end Slots

/-! ## Relations -/

namespace Store

variable {s : Store} {registry : String} {combinator : Combinator} {operands : List (Bound Base)}
  {views : List View} {v : View} {rows : List Tuple} {r r' : Relation}

/-- Whether a relation has the tuples of another one without the column `i`: as its rows, each where
it comes first, and as the tuples that it accepts. -/
structure Projects (s : Store) (i : Nat) (r r' : Relation) : Prop where
  rows : (s.rows r').rows = ((s.rows r).rows.map fun t => t.eraseIdx i).eraseDups
  accepts : ∀ t', s.accepts r' t' = true ↔ ∃ t, s.accepts r t = true ∧ t.eraseIdx i = t'

theorem Maps.projects {i : Nat} (h : s.Maps (fun t => some (t.eraseIdx i)) r r') :
    s.Projects i r r' := by
  refine ⟨?_, fun t' => ?_⟩
  · rw [h.rows, ← List.filterMap_eq_map]
    rfl
  · rw [h.accepts_iff]
    simp only [Option.some.injEq]

/-- What a wildcard does to the relations that a combinator builds of operands. In place of a
variable that labels one slot of all operands together, it removes the column of the variable; the
other columns stay in their order. -/
structure WildcardLaw (s : Store) (registry : String) (combinator : Combinator)
    (views : List View) : Prop where
  columns : ∀ A, Bound.correspondence (views.map (Bound.rebind (.blank A))) =
    (Bound.correspondence views).erase A
  project : ∀ A, (views.flatMap Bound.slots).count (.var A) = 1 →
    Relation.Rebinds registry combinator views (.blank A)
      (s.Projects ((Bound.correspondence views).idxOf A))

/-- Relations that are given by a pattern obey the law of wildcards. -/
theorem PatternOver.wildcardLaw (h : s.PatternOver registry combinator views rows) :
    s.WildcardLaw registry combinator views := by
  refine ⟨fun A => ?columns, fun A hA => ?project⟩
  case columns =>
    rw [Bound.correspondence_rebind, Slots.vars_blank, Bound.correspondence_eq_vars]
  case project =>
    rw [Bound.correspondence_eq_vars]
    exact (h.rebinds fun row hrow => Slots.tuple?_blank hA.le hrow).imp
      fun _ _ hmaps => hmaps.projects

/-- A wildcard in place of a variable that labels one slot is a projection, in any intersection of
stored relations and in the complement of any bound relation. -/
theorem wildcard_projects (hs : s.Reachable) (hne : operands ≠ [])
    (ho : ∀ o ∈ operands, s.BuiltView o.view) (hv : s.BuiltView v) (registry : String) :
    s.WildcardLaw registry .intersection (operands.map Bound.view) ∧
      s.WildcardLaw registry .complement [v] :=
  ⟨(patternOver_intersection hs.valid hne ho registry).wildcardLaw,
    (patternOver_complement hs.valid hv registry).wildcardLaw⟩

theorem wildcard_projects_kinshipKnown :
    ((kinshipKnown.map Bound.view).flatMap Bound.slots).count (.var (.named "B")) = 1 ∧
      Session.kinship.store.WildcardLaw "main" .intersection (kinshipKnown.map Bound.view) ∧
      Session.kinship.store.WildcardLaw "main" .complement
        [⟨.base Session.kinshipParent, [.var (.named "A"), .wildcard]⟩] :=
  ⟨by decide, wildcard_projects Session.reachable_kinship (by simp [kinshipKnown])
    builtView_kinshipKnown ⟨.base Session.holds_kinshipParent, rfl⟩ "main"⟩

-- beside two women there are four rows, which come to two when the column of the women is gone
example :
    (Session.kinship.store.rows (.intersection 9
      ([⟨.base Session.kinshipParent, [.var (.named "A"), .var (.named "B")]⟩,
        ⟨.base Session.kinshipFemale, [.var (.named "C")]⟩].map
          (Bound.rebind (.blank (.named "C")))))).rows =
      [[.text "teresa", .text "piotr"], [.text "piotr", .text "ania"]] := by decide

end Store

end RelationAlgebra
