import Mathlib.Data.List.InsertIdx
import RelationAlgebra.Proofs.Complement
import RelationAlgebra.Proofs.NestedLoop

/-!
# Slots as a pattern

The slots of operands, one after another, are a pattern, which gives a row that fits the tuple of
its variables (`Slots.tuple?`). An intersection of stored relations ranges over the choices of one
row for each operand, a complement over the ambient rows that its operand rejects, and what they
enumerate are the tuples of these rows, each once. Binding the slots otherwise changes the pattern
and leaves these rows as they are (`Store.PatternOver`), so what it does to the tuple of a row it
does to the tuples of the relation (`Store.PatternOver.rebinds`).
-/

namespace RelationAlgebra

/-- The operand with each slot bound otherwise. -/
def Bound.rebind {α : Type} (f : Binding → Binding) (o : Bound α) : Bound α :=
  ⟨o.relation, o.slots.map f⟩

theorem Bound.map_rebind_id {α : Type} (operands : List (Bound α)) :
    operands.map (Bound.rebind fun b => b) = operands :=
  List.map_id'' (fun o => by rw [Bound.rebind, List.map_id']) operands

theorem Bound.flatMap_slots_rebind {α : Type} (f : Binding → Binding) (operands : List (Bound α)) :
    (operands.map (Bound.rebind f)).flatMap Bound.slots = (operands.flatMap Bound.slots).map f := by
  rw [List.flatMap_map, List.map_flatMap]
  rfl

theorem Bound.map_rebind_view (f : Binding → Binding) (operands : List (Bound Base)) :
    (operands.map Bound.view).map (Bound.rebind f) =
      (operands.map (Bound.rebind f)).map Bound.view := by
  rw [List.map_map, List.map_map]
  rfl

/-- The columns of operands whose slots are bound otherwise. -/
theorem Bound.correspondence_rebind {α : Type} (f : Binding → Binding) (operands : List (Bound α)) :
    correspondence (operands.map (Bound.rebind f)) =
      Slots.vars ((operands.flatMap Bound.slots).map f) := by
  rw [correspondence_eq_vars, flatMap_slots_rebind]

/-! ## The tuple of a row -/

/-- The atoms that the variables of the slots have in a row, if the row fits. -/
def Slots.tuple? (slots : Slots) (row : Tuple) : Option Tuple := slots.project? slots.vars row

theorem Slots.tuple?_eq_some_iff {slots : Slots} {row t : Tuple}
    (hlen : slots.length = row.length) :
    slots.tuple? row = some t ↔ ∃ ν : Valuation, slots.Fits ν row ∧ t = slots.vars.map ν :=
  project?_eq_some_iff hlen fun _ => mem_vars.mp

/-- The tuple without the column of a variable lists the atoms of the other variables. -/
theorem Tuple.eraseIdx_idxOf_map (columns : List Var) (A : Var) (ν : Valuation) :
    (columns.map ν).eraseIdx (columns.idxOf A) = (columns.erase A).map ν := by
  rw [List.eraseIdx_map, List.eraseIdx_idxOf_eq_erase]

namespace Reading

variable {operands : List (Bound Reading)}

/-- A join enumerates the tuples of the choices of one row for each operand. -/
theorem rows_join (h : ∀ o ∈ operands, Plain o) :
    (join (Bound.correspondence operands) operands).extension.rows =
      (((choices (operands.map fun o => o.relation.extension.rows)).map List.flatten).filterMap
        (Slots.tuple? (operands.flatMap Bound.slots))).eraseDups := by
  rw [extension_join, Extension.foldl_eq_pushAll emit_eq_pushAll, Extension.rows_pushAll_empty,
    solutions_eq_filterMap h, List.filterMap_filterMap, List.filterMap_map,
    Bound.correspondence_eq_vars]
  rfl

/-- A complement enumerates the tuples of the ambient rows that its operand rejects. -/
theorem rows_complement (ambient : Extension) (operand : Bound Reading) :
    (complement (Bound.correspondence [operand]) ambient operand).extension.rows =
      ((ambient.rows.filter fun row => !operand.relation.accepts row).filterMap
        operand.slots.tuple?).eraseDups := by
  rw [extension_complement, Bound.correspondence_eq_vars, List.flatMap_singleton,
    Extension.foldl_eq_pushAll (round_eq_pushAll _ operand), Extension.rows_pushAll_empty,
    List.filterMap_filter]
  rfl

end Reading

/-! ## Relations over a pattern -/

/-- Whether a combinator builds a relation of operands and one of the operands with each slot bound
otherwise, and whether, whatever their numbers, the second has a slot for each column of its
operands and `P` holds of the two. -/
def Relation.Rebinds (registry : String) (combinator : Combinator) (views : List View)
    (f : Binding → Binding) (P : Relation → Relation → Prop) : Prop :=
  ∀ id id', ∃ r r', derive id combinator views registry = .ok r ∧
    derive id' combinator (views.map (Bound.rebind f)) registry = .ok r' ∧
    r'.arity = (Bound.correspondence (views.map (Bound.rebind f))).length ∧ P r r'

theorem Relation.Rebinds.imp {registry : String} {combinator : Combinator} {views : List View}
    {f : Binding → Binding} {P Q : Relation → Relation → Prop}
    (h : Rebinds registry combinator views f P) (hPQ : ∀ r r', P r r' → Q r r') :
    Rebinds registry combinator views f Q := by
  intro id id'
  obtain ⟨r, r', hr, hr', harity, hP⟩ := h id id'
  exact ⟨r, r', hr, hr', harity, hPQ r r' hP⟩

namespace Store

variable {s : Store} {registry : String} {combinator : Combinator} {operands : List (Bound Base)}
  {views : List View} {v : View} {rows : List Tuple}

/-- Whether a combinator ranges over the given rows, however the slots of the operands are bound:
the relation that it builds has a slot for each column of the operands, enumerates the tuples of
these rows, each once, and accepts what it enumerates. -/
structure PatternOver (s : Store) (registry : String) (combinator : Combinator) (views : List View)
    (rows : List Tuple) : Prop where
  length : ∀ row ∈ rows, (views.flatMap Bound.slots).length = row.length
  derives : ∀ f id, ∃ r,
    Relation.derive id combinator (views.map (Bound.rebind f)) registry = .ok r ∧
      r.arity = (Bound.correspondence (views.map (Bound.rebind f))).length ∧
      (s.rows r).rows =
        (rows.filterMap (Slots.tuple? ((views.flatMap Bound.slots).map f))).eraseDups ∧
      ∀ t, s.accepts r t = true ↔ t ∈ (s.rows r).rows

theorem BuiltView.rebind (hv : s.BuiltView v) (f : Binding → Binding) : s.BuiltView (v.rebind f) :=
  ⟨hv.relation, (List.length_map f).trans hv.slots⟩

theorem builtView_rebind (ho : ∀ o ∈ operands, s.BuiltView o.view) (f : Binding → Binding) :
    ∀ o ∈ operands.map (Bound.rebind f), s.BuiltView o.view := by
  rw [List.forall_mem_map]
  exact fun o hm => (ho o hm).rebind f

theorem flatMap_slots_readBound (s : Store) (views : List View) :
    (views.map s.readBound).flatMap Bound.slots = views.flatMap Bound.slots := by
  simp [List.flatMap_map]

/-- A choice of one row for each operand has as many atoms as the operands have slots. -/
theorem length_of_mem_choices (hs : s.Valid) (ho : ∀ o ∈ operands, s.BuiltView o.view)
    {c : List Tuple} (hc : c ∈ choices (operands.map fun o => (s.extension o.relation).rows)) :
    (operands.flatMap Bound.slots).length = c.flatten.length := by
  induction operands generalizing c with
  | nil =>
    have hnil : c = [] := by simpa [choices] using hc
    rw [hnil]
    rfl
  | cons o operands ih =>
    rw [List.forall_mem_cons] at ho
    rw [mem_choices, List.map_cons, List.forall₂_cons_right_iff] at hc
    obtain ⟨row, c, hrow, hc, rfl⟩ := hc
    have hlen : o.slots.length = row.length := by
      rw [hs.length_of_mem_extension ho.1.relation.holds hrow]
      exact ho.1.slots
    rw [List.flatMap_cons, List.flatten_cons, List.length_append, List.length_append, hlen,
      ih ho.2 (mem_choices.mpr hc)]

/-- An intersection of stored relations ranges over the choices of one row for each operand. -/
theorem patternOver_intersection (hs : s.Valid) (hne : operands ≠ [])
    (ho : ∀ o ∈ operands, s.BuiltView o.view) (registry : String) :
    s.PatternOver registry .intersection (operands.map Bound.view)
      ((choices (operands.map fun o => (s.extension o.relation).rows)).map List.flatten) := by
  refine ⟨?length, fun f id => ?derives⟩
  case length =>
    rw [List.forall_mem_map]
    intro c hc
    rw [List.flatMap_map]
    exact length_of_mem_choices hs ho hc
  case derives =>
    have hviews : (operands.map Bound.view).map (Bound.rebind f) ≠ [] := by simpa using hne
    have ho' := builtView_rebind ho f
    refine ⟨_, Relation.derive_intersection hviews, rfl, ?_, fun t => ?_⟩
    · -- the rows that are walked do not depend on the bindings
      have hrows : ((((operands.map (Bound.rebind f)).map Bound.view).map s.readBound).map
          fun o => o.relation.extension.rows) =
            operands.map fun o => (s.extension o.relation).rows := by
        simp only [List.map_map]
        rfl
      have hslots := Bound.flatMap_slots_rebind f (operands.map Bound.view)
      rw [Bound.map_rebind_view] at hslots ⊢
      rw [Store.rows, read_intersection, ← Bound.correspondence_map (f := s.readBound)
        fun o => by simp, Reading.rows_join (plain_view hs ho'), hrows, flatMap_slots_readBound,
        hslots]
    · rw [Bound.map_rebind_view, accepts_eq_lists rfl]
      exact exact_intersection (proper_and_exact_view hs ho') t

/-- A complement ranges over the ambient rows that its operand rejects. -/
theorem patternOver_complement (hs : s.Valid) (hv : s.BuiltView v) (registry : String) :
    s.PatternOver registry .complement [v]
      ((s.ambientOf registry v.relation).rows.filter fun row => !s.accepts v.relation row) := by
  refine ⟨?length, fun f id => ?derives⟩
  case length =>
    intro row hrow
    have hambient := hs.length_of_mem_ambientOf hv registry row (List.mem_filter.mp hrow).1
    simpa using hambient
  case derives =>
    refine ⟨_, rfl, rfl, ?_, fun t => ?_⟩
    · have hcolumns : Bound.correspondence [v.rebind f] =
          Bound.correspondence [s.readBound (v.rebind f)] := by
        rw [readBound_eq]
        rfl
      rw [Store.rows, read_complement, hcolumns, Reading.rows_complement, readBound_eq,
        List.flatMap_singleton]
      rfl
    · rw [accepts_eq_lists rfl]
      exact hs.exact_complement (hv.rebind f) t

/-- Whether the rows of a relation are what a partial map takes those of another one to, in order
and each once, where both relations accept what they enumerate. -/
structure Maps (s : Store) (g : Tuple → Option Tuple) (r r' : Relation) : Prop where
  nodup : (s.rows r).rows.Nodup
  rows : (s.rows r').rows = ((s.rows r).rows.filterMap g).eraseDups
  exact : ∀ t, s.accepts r t = true ↔ t ∈ (s.rows r).rows
  exact' : ∀ t, s.accepts r' t = true ↔ t ∈ (s.rows r').rows

/-- A mapped relation accepts what comes of an accepted tuple. -/
theorem Maps.accepts_iff {g : Tuple → Option Tuple} {r r' : Relation} (h : s.Maps g r r')
    {t' : Tuple} : s.accepts r' t' = true ↔ ∃ t, s.accepts r t = true ∧ g t = some t' := by
  rw [h.exact', h.rows, List.mem_eraseDups, List.mem_filterMap]
  simp only [h.exact]

/-- Binding the slots otherwise takes the tuples of the relation where it takes the tuple of each
row. -/
theorem PatternOver.rebinds (h : s.PatternOver registry combinator views rows)
    {f : Binding → Binding} {g : Tuple → Option Tuple}
    (hg : ∀ row : Tuple, (views.flatMap Bound.slots).length = row.length →
      Slots.tuple? ((views.flatMap Bound.slots).map f) row =
        (Slots.tuple? (views.flatMap Bound.slots) row).bind g) :
    Relation.Rebinds registry combinator views f (s.Maps g) := by
  intro id id'
  obtain ⟨r, hr, -, hrows, haccepts⟩ := h.derives (fun b => b) id
  obtain ⟨r', hr', harity, hrows', haccepts'⟩ := h.derives f id'
  rw [Bound.map_rebind_id] at hr
  rw [List.map_id'] at hrows
  refine ⟨r, r', hr, hr', harity, hrows ▸ nodup_eraseDups _, ?_, haccepts, haccepts'⟩
  -- tuples that come twice may be left out before the map
  rw [hrows', hrows, eraseDups_filterMap_eraseDups, List.filterMap_filterMap]
  exact congrArg List.eraseDups (List.filterMap_congr fun row hrow => hg row (h.length row hrow))

end Store

end RelationAlgebra
