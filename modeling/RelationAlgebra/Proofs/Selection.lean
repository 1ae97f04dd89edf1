import RelationAlgebra.Proofs.Pattern
import RelationAlgebra.Proofs.Union

/-!
# Literals as selections

A literal in place of a variable restricts the slots of this variable to one atom. A row fits slots
with literals in them just if it fits the slots before when the variables have the atoms of the
literals (`Slots.fits_substitute`). So its tuple is the one that it gave before, if this has the
atoms of the literals in their columns, and without these columns. With a literal in place of one
variable, intersections and complements therefore hold the tuples with this atom in the column of
the variable, without this column. With literals in place of all variables they hold the empty tuple
or nothing, which answers a membership test (`Store.literal_selects`).
-/

namespace RelationAlgebra

/-- The binding with a literal in place of a variable that has a value. -/
def Binding.substitute (α : Assignment) : Binding → Binding
  | var v => (α.get? v).elim (var v) literal
  | b => b

/-- The valuation that has the values of an assignment, and its own where there are none. -/
def Assignment.overrule (α : Assignment) (ν : Valuation) : Valuation :=
  fun v => (α.get? v).getD (ν v)

namespace Assignment

variable {α : Assignment} {ν : Valuation}

theorem within_overrule (α : Assignment) (ν : Valuation) : α.Within (α.overrule ν) := by
  intro v x h
  rw [overrule, h, Option.getD_some]

theorem overrule_of_within (h : α.Within ν) : α.overrule ν = ν := by
  funext v
  rw [overrule]
  cases hv : α.get? v with
  | none => rfl
  | some x => exact (h v x hv).symm

theorem get?_singleton (A v : Var) (c : Atom) :
    get? [(A, c)] v = if v = A then some c else none := get?_assign

theorem within_singleton {A : Var} {c : Atom} : Within [(A, c)] ν ↔ ν A = c :=
  (within_assign (not_assigns_nil A)).trans (and_iff_left (within_nil ν))

end Assignment

/-! ## Slots -/

/-- A literal put for a variable holds where the variable holds with its value. -/
theorem Binding.holds_substitute {α : Assignment} {ν : Valuation} {b : Binding} {x : Atom} :
    (b.substitute α).Holds ν x ↔ b.Holds (α.overrule ν) x := by
  cases b with
  | var v =>
    rw [substitute, Holds, Assignment.overrule]
    cases α.get? v <;> rfl
  | wildcard | literal => rfl

theorem Binding.var?_substitute (α : Assignment) (b : Binding) :
    (b.substitute α).var? = b.var?.filter fun v => (α.get? v).isNone := by
  cases b with
  | var v =>
    rw [substitute]
    cases h : α.get? v <;> simp [var?, Option.filter, h]
  | wildcard | literal => rfl

namespace Slots

variable {slots : Slots} {α : Assignment} {ν : Valuation} {row t : Tuple} {A : Var} {c : Atom}

/-- A row fits slots with literals in them just if it fits the slots before when the atoms of the
literals overrule those of the variables. -/
theorem fits_substitute :
    Slots.Fits (slots.map (Binding.substitute α)) ν row ↔ slots.Fits (α.overrule ν) row := by
  rw [Fits, List.forall₂_map_left_iff]
  simp only [Binding.holds_substitute]
  rfl

/-- The columns that are left are those of the variables without a value. -/
theorem vars_substitute (slots : Slots) (α : Assignment) :
    Slots.vars (slots.map (Binding.substitute α)) =
      slots.vars.filter fun v => (α.get? v).isNone :=
  vars_map (Binding.var?_substitute α) slots

/-- Slots with literals in them give a row the tuple of the valuations that have the atoms of the
literals, in the columns that are left. -/
theorem tuple?_substitute_eq_some_iff (hlen : slots.length = row.length) :
    Slots.tuple? (slots.map (Binding.substitute α)) row = some t ↔
      ∃ ν : Valuation, slots.Fits ν row ∧ α.Within ν ∧
        t = (slots.vars.filter fun v => (α.get? v).isNone).map ν := by
  rw [tuple?_eq_some_iff (by simpa using hlen), vars_substitute]
  simp only [fits_substitute]
  constructor
  · rintro ⟨ν, hfit, rfl⟩
    -- overruling changes no atom in the columns that are left
    refine ⟨α.overrule ν, hfit, α.within_overrule ν, List.map_congr_left fun v hv => ?_⟩
    have hnone : α.get? v = none := by simpa using (List.mem_filter.mp hv).2
    rw [Assignment.overrule, hnone, Option.getD_none]
  · rintro ⟨ν, hfit, hν, rfl⟩
    exact ⟨ν, (Assignment.overrule_of_within hν).symm ▸ hfit, rfl⟩

/-! ### One literal -/

/-- A literal for one variable drops its column. -/
theorem vars_substitute_singleton (slots : Slots) (A : Var) (c : Atom) :
    Slots.vars (slots.map (Binding.substitute [(A, c)])) = slots.vars.erase A := by
  rw [vars_substitute, (nodup_vars slots).erase_eq_filter]
  refine List.filter_congr fun v _ => ?_
  rw [Assignment.get?_singleton]
  by_cases h : v = A <;> simp [h]

end Slots

/-- The tuple without the column `i`, if it has the atom `c` there. -/
def Tuple.select (i : Nat) (c : Atom) (t : Tuple) : Option Tuple :=
  if t[i]? = some c then some (t.eraseIdx i) else none

theorem Tuple.select_eq_some_iff {i : Nat} {c : Atom} {t t' : Tuple} :
    select i c t = some t' ↔ t[i]? = some c ∧ t.eraseIdx i = t' := by
  simp [select]

/-- To select by a column is to fix its variable and to drop the column. -/
theorem Tuple.select_map_eq_some_iff {columns : List Var} {A : Var} (hA : A ∈ columns) {c : Atom}
    {ν : Valuation} {t : Tuple} :
    select (columns.idxOf A) c (columns.map ν) = some t ↔
      ν A = c ∧ (columns.erase A).map ν = t := by
  rw [select_eq_some_iff, List.getElem?_map, List.getElem?_idxOf hA, eraseIdx_idxOf_map,
    Option.map_some, Option.some.injEq]

/-- Where the atom of a column is given, the other columns determine the tuple. -/
theorem Tuple.eq_of_eraseIdx_eq {i : Nat} {c : Atom} {t u : Tuple} (ht : t[i]? = some c)
    (hu : u[i]? = some c) (h : t.eraseIdx i = u.eraseIdx i) : t = u := by
  obtain ⟨hti, ht⟩ := List.getElem?_eq_some_iff.mp ht
  obtain ⟨hui, hu⟩ := List.getElem?_eq_some_iff.mp hu
  rw [← List.insertIdx_eraseIdx_getElem hti, ← List.insertIdx_eraseIdx_getElem hui, ht, hu, h]

namespace Slots

variable {slots : Slots} {row t : Tuple} {A : Var} {c : Atom}

/-- With a literal for one variable, a row gives the selected tuple or none. -/
theorem tuple?_substitute_singleton (hA : A ∈ slots.vars) (hlen : slots.length = row.length) :
    Slots.tuple? (slots.map (Binding.substitute [(A, c)])) row =
      (slots.tuple? row).bind (Tuple.select (slots.vars.idxOf A) c) := by
  refine Option.ext fun t => ?_
  rw [tuple?_substitute_eq_some_iff hlen, ← vars_substitute, vars_substitute_singleton,
    Option.bind_eq_some_iff]
  simp only [tuple?_eq_some_iff hlen, Assignment.within_singleton]
  constructor
  · rintro ⟨ν, hfit, hc, rfl⟩
    exact ⟨_, ⟨ν, hfit, rfl⟩, (Tuple.select_map_eq_some_iff hA).mpr ⟨hc, rfl⟩⟩
  · rintro ⟨_, ⟨ν, hfit, rfl⟩, ht⟩
    obtain ⟨hc, ht⟩ := (Tuple.select_map_eq_some_iff hA).mp ht
    exact ⟨ν, hfit, hc, ht.symm⟩

/-! ### Literals throughout -/

theorem vars_substitute_ofOutput (slots : Slots) (hn : t.length = slots.vars.length) :
    Slots.vars (slots.map (Binding.substitute (.ofOutput slots.vars t))) = [] := by
  rw [vars_substitute, List.filter_eq_nil_iff]
  intro v hv
  obtain ⟨x, hx⟩ := (Assignment.assigns_ofOutput hn).mpr hv
  simp [hx]

/-- With literals for all variables, a row gives the empty tuple if it gave this one before. -/
theorem tuple?_substitute_ofOutput (hn : t.length = slots.vars.length)
    (hlen : slots.length = row.length) :
    Slots.tuple? (slots.map (Binding.substitute (.ofOutput slots.vars t))) row =
      (slots.tuple? row).bind fun u => if u = t then some [] else none := by
  refine Option.ext fun t' => ?_
  rw [tuple?_substitute_eq_some_iff hlen, ← vars_substitute, vars_substitute_ofOutput slots hn,
    Option.bind_eq_some_iff]
  simp only [tuple?_eq_some_iff hlen, Assignment.within_ofOutput (nodup_vars slots) hn,
    Option.ite_none_right_eq_some, List.map_nil]
  constructor
  · rintro ⟨ν, hfit, ht, rfl⟩
    exact ⟨_, ⟨ν, hfit, rfl⟩, ht.symm, rfl⟩
  · rintro ⟨_, ⟨ν, hfit, rfl⟩, ht, ht'⟩
    exact ⟨ν, hfit, ht.symm, (Option.some.inj ht').symm⟩

end Slots

/-! ## Relations -/

namespace Store

variable {s : Store} {registry : String} {combinator : Combinator} {operands : List (Bound Base)}
  {views : List View} {v : View} {rows : List Tuple} {r r' : Relation}

/-- Whether a relation has the tuples of another one with the atom `c` in the column `i`, without
this column: in the same order as its rows, and as the tuples that it accepts. -/
structure Selects (s : Store) (i : Nat) (c : Atom) (r r' : Relation) : Prop where
  rows : (s.rows r').rows =
    ((s.rows r).rows.filter fun t => t[i]? == some c).map fun t => t.eraseIdx i
  accepts : ∀ t', s.accepts r' t' = true ↔
    ∃ t, s.accepts r t = true ∧ t[i]? = some c ∧ t.eraseIdx i = t'

theorem Maps.selects {i : Nat} {c : Atom} (h : s.Maps (Tuple.select i c) r r') :
    s.Selects i c r r' := by
  refine ⟨?rows, fun t' => ?accepts⟩
  case rows =>
    have hmap : (s.rows r).rows.filterMap (Tuple.select i c) =
        ((s.rows r).rows.filter fun t => t[i]? == some c).map fun t => t.eraseIdx i := by
      rw [← List.filterMap_eq_map, List.filterMap_filter]
      refine List.filterMap_congr fun t _ => ?_
      simp [Tuple.select]
    -- rows with this atom stay apart when its column is gone
    have hdistinct : (((s.rows r).rows.filter fun t => t[i]? == some c).map
        fun t => t.eraseIdx i).Nodup := by
      refine (h.nodup.filter _).map_on fun t ht u hu heq => ?_
      rw [List.mem_filter, beq_iff_eq] at ht hu
      exact Tuple.eq_of_eraseIdx_eq ht.2 hu.2 heq
    rw [h.rows, hmap, eraseDups_eq_self hdistinct]
  case accepts =>
    rw [h.accepts_iff]
    simp only [Tuple.select_eq_some_iff]

/-- Whether a relation without columns answers the membership test of a tuple in another one: by
holding the empty tuple, in what it accepts and in what it enumerates. -/
structure Answers (s : Store) (t : Tuple) (r r' : Relation) : Prop where
  arity : r'.arity = 0
  accepts : s.accepts r t = true ↔ s.accepts r' [] = true
  rows : s.accepts r t = true ↔ [] ∈ (s.rows r').rows

/-- What literals do to the relations that a combinator builds of operands. One in place of a
variable selects the tuples with its atom in the column of the variable and removes this column; the
other columns stay in their order. Literals in place of all variables answer the membership test of
the tuple of their atoms. -/
structure LiteralLaw (s : Store) (registry : String) (combinator : Combinator)
    (views : List View) : Prop where
  columns : ∀ A c, Bound.correspondence (views.map (Bound.rebind (.substitute [(A, c)]))) =
    (Bound.correspondence views).erase A
  select : ∀ A ∈ Bound.correspondence views, ∀ c,
    Relation.Rebinds registry combinator views (.substitute [(A, c)])
      (s.Selects ((Bound.correspondence views).idxOf A) c)
  answer : ∀ t : Tuple, t.length = (Bound.correspondence views).length →
    Relation.Rebinds registry combinator views
      (.substitute (.ofOutput (Bound.correspondence views) t)) (s.Answers t)

/-- Relations that are given by a pattern obey the law of literals. -/
theorem PatternOver.literalLaw (h : s.PatternOver registry combinator views rows) :
    s.LiteralLaw registry combinator views := by
  refine ⟨fun A c => ?columns, fun A hA c => ?select, fun t ht => ?answer⟩
  case columns =>
    rw [Bound.correspondence_rebind, Slots.vars_substitute_singleton,
      Bound.correspondence_eq_vars]
  case select =>
    rw [Bound.correspondence_eq_vars] at hA ⊢
    exact (h.rebinds fun row hrow => Slots.tuple?_substitute_singleton hA hrow).imp
      fun _ _ hmaps => hmaps.selects
  case answer =>
    rw [Bound.correspondence_eq_vars] at ht ⊢
    have hcolumns := Slots.vars_substitute_ofOutput (views.flatMap Bound.slots) ht
    intro id id'
    obtain ⟨r, r', hr, hr', harity, hmaps⟩ :=
      h.rebinds (fun row hrow => Slots.tuple?_substitute_ofOutput ht hrow) id id'
    have haccepts : s.accepts r t = true ↔ s.accepts r' [] = true := by
      simp [hmaps.accepts_iff]
    refine ⟨r, r', hr, hr', harity, ?_, haccepts, haccepts.trans (hmaps.exact' [])⟩
    rw [harity, Bound.correspondence_rebind, hcolumns, List.length_nil]

/-- A literal in place of a variable is a selection, in any intersection of stored relations and in
the complement of any bound relation. -/
theorem literal_selects (hs : s.Reachable) (hne : operands ≠ [])
    (ho : ∀ o ∈ operands, s.BuiltView o.view) (hv : s.BuiltView v) (registry : String) :
    s.LiteralLaw registry .intersection (operands.map Bound.view) ∧
      s.LiteralLaw registry .complement [v] :=
  ⟨(patternOver_intersection hs.valid hne ho registry).literalLaw,
    (patternOver_complement hs.valid hv registry).literalLaw⟩

theorem literal_selects_kinshipKnown :
    .named "A" ∈ Bound.correspondence (kinshipKnown.map Bound.view) ∧
      Session.kinship.store.LiteralLaw "main" .intersection (kinshipKnown.map Bound.view) ∧
      Session.kinship.store.LiteralLaw "main" .complement
        [⟨.base Session.kinshipParent, [.var (.named "A"), .wildcard]⟩] :=
  ⟨by decide, literal_selects Session.reachable_kinship (by simp [kinshipKnown])
    builtView_kinshipKnown ⟨.base Session.holds_kinshipParent, rfl⟩ "main"⟩

-- both slots with the variable hold the literal, and only the other column is left
example :
    (Session.kinship.store.rows (.intersection 9 ((kinshipKnown.map Bound.view).map
      (Bound.rebind (.substitute [(.named "A", .text "teresa")]))))).rows =
        [[.text "piotr"]] := by decide

end Store

end RelationAlgebra
