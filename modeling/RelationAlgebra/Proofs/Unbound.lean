import RelationAlgebra.Proofs.Agreement

/-!
# Unbound operands

A relation that is used unbound has a positional variable in every slot, so unbound relations of
one arity have the same columns. A relation is tabular (`Store.Tabular`) if it lists its rows and
nothing else, and these have the length of its arity; stored relations are. Of unbound tabular
relations, union and intersection hold the union and the intersection of the rows, and are tabular
again.
-/

namespace RelationAlgebra

/-- The variables of the slots of an unbound relation. -/
def Var.positional (n : Nat) : List Var := (List.range n).map .index

@[simp]
theorem Var.length_positional (n : Nat) : (positional n).length = n := by simp [positional]

theorem nodup_positional (n : Nat) : (Var.positional n).Nodup :=
  List.nodup_range.map fun _ _ => Var.index.inj

/-- An unbound operand carries the positional variables of its slots, in order. -/
theorem Relation.identityView_eq (r : Relation) :
    r.identityView = ⟨r, (Var.positional r.arity).map .var⟩ := by
  simp [identityView, Slots.identity, Var.positional]

/-- Operands that all carry the same distinct variables have these as their output columns, whatever
their number. -/
theorem Bound.correspondence_of_vars {α : Type} {operands : List (Bound α)} {vs : List Var}
    (hn : vs.Nodup) (hne : operands ≠ []) (h : ∀ o ∈ operands, o.slots = vs.map .var) :
    correspondence operands = vs := by
  cases operands with
  | nil => exact absurd rfl hne
  | cons o os =>
    rw [List.forall_mem_cons] at h
    -- the operands after the first have no other variables
    have hrest : ((os.flatMap Bound.slots).filterMap Binding.var?).removeAll vs = [] := by
      rw [List.removeAll, List.filter_eq_nil_iff]
      intro v hv
      obtain ⟨b, hb, hbv⟩ := List.mem_filterMap.mp hv
      obtain ⟨o', ho', hb⟩ := List.mem_flatMap.mp hb
      rw [h.2 o' ho'] at hb
      obtain ⟨w, hw, rfl⟩ := List.mem_map.mp hb
      have hwv : w = v := Option.some.inj hbv
      simpa [hwv] using hw
    rw [correspondence, List.flatMap_cons, List.filterMap_append, h.1,
      Binding.filterMap_var?_map_var, List.eraseDups_append, hrest, eraseDups_eq_self hn]
    simp

namespace Store

variable {s : Store} {n : Nat} {r : Relation} {rs : List Relation} {t : Tuple}

/-- Whether a relation has the arity `n` and lists its rows and nothing else, all of this length. -/
structure Tabular (s : Store) (n : Nat) (r : Relation) : Prop where
  arity : r.arity = n
  length : ∀ t ∈ (s.rows r).rows, t.length = n
  exact : (s.read r).Exact

theorem Valid.tabular_base {b : Base} (hs : s.Valid) (hb : s.Holds b) :
    s.Tabular b.arity (.base b) :=
  ⟨rfl, fun _ ht => hs.length_of_mem_extension hb ht, fun _ => Extension.contains_iff⟩

/-- A derived table accepts its rows and nothing else; a stored one may add induced pairs. -/
theorem Tabular.accepts_iff (h : s.Tabular n r) (hd : r.isDerived = true) :
    s.accepts r t = true ↔ t ∈ (s.rows r).rows := by
  rw [accepts_eq_lists hd]
  exact h.exact t

theorem Tabular.readBound_identityView (h : s.Tabular n r) :
    s.readBound r.identityView = ⟨s.read r, (Var.positional n).map .var⟩ := by
  rw [readBound_eq, Relation.identityView_eq, h.arity]

/-- Unbound operands of one arity share their columns, slot by slot. -/
theorem correspondence_identityViews (hne : rs ≠ []) (h : ∀ r ∈ rs, s.Tabular n r) :
    Bound.correspondence (rs.map Relation.identityView) = Var.positional n := by
  refine Bound.correspondence_of_vars (nodup_positional n) (by simpa using hne) ?_
  rw [List.forall_mem_map]
  intro r hr
  rw [Relation.identityView_eq, (h r hr).arity]

/-- Unbound tables list exactly their rows, so the search may look them up or scan them alike. -/
theorem proper_and_exact_identityViews (h : ∀ r ∈ rs, s.Tabular n r) :
    ∀ o ∈ (rs.map Relation.identityView).map s.readBound,
      Reading.Proper o ∧ o.relation.Exact := by
  rw [List.forall_mem_map, List.forall_mem_map]
  intro r hr
  rw [(h r hr).readBound_identityView]
  refine ⟨fun row hrow => ?_, (h r hr).exact⟩
  simpa using ((h r hr).length row hrow).symm

theorem var_mem_of_mem_identityViews (h : ∀ r ∈ rs, s.Tabular n r) :
    ∀ o ∈ (rs.map Relation.identityView).map s.readBound, ∀ v ∈ Var.positional n,
      .var v ∈ o.slots := by
  rw [List.forall_mem_map, List.forall_mem_map]
  intro r hr v hv
  rw [(h r hr).readBound_identityView]
  exact List.mem_map_of_mem hv

/-- A valuation finds a row of an unbound table if the values of the positional variables are one.
-/
theorem Tabular.hasRow_identityView {ν : Valuation} (h : s.Tabular n r) :
    Reading.HasRow (s.readBound r.identityView) ν ↔
      (Var.positional n).map ν ∈ (s.rows r).rows := by
  rw [h.readBound_identityView, Reading.hasRow_vars]
  rfl

/-- A tuple with an atom for each positional variable is what some valuation gives to them. -/
theorem exists_positional_iff {T : Tuple → Prop} (hT : ∀ t, T t → t.length = n) :
    (∃ ν : Valuation, T ((Var.positional n).map ν) ∧ t = (Var.positional n).map ν) ↔ T t := by
  constructor
  · rintro ⟨ν, h, rfl⟩
    exact h
  · intro h
    -- every tuple of this length is what the positional variables are under some valuation
    have hlen : t.length = (Var.positional n).length := by simpa using hT t h
    obtain ⟨ν, rfl⟩ := Tuple.exists_eq_map (nodup_positional n) hlen
    exact ⟨ν, h, rfl⟩

/-! ## Union -/

/-- A union of unbound tables enumerates what any of them enumerates. -/
theorem mem_rows_union_unbound {id : Nat} (hne : rs ≠ []) (h : ∀ r ∈ rs, s.Tabular n r) :
    t ∈ (s.rows (.union id (rs.map Relation.identityView))).rows ↔
      ∃ r ∈ rs, t ∈ (s.rows r).rows := by
  rw [rows, read_union, correspondence_identityViews hne h,
    Reading.mem_rows_union_of_exact (nodup_positional n) (proper_and_exact_identityViews h)]
  constructor
  · rintro ⟨o, ho, ν, hrow, -, rfl⟩
    obtain ⟨v, hv, rfl⟩ := List.mem_map.mp ho
    obtain ⟨r, hr, rfl⟩ := List.mem_map.mp hv
    exact ⟨r, hr, (h r hr).hasRow_identityView.mp hrow⟩
  · rintro ⟨r, hr, ht⟩
    obtain ⟨ν, hrow, rfl⟩ := (exists_positional_iff (h r hr).length).mpr ht
    have ho := List.mem_map_of_mem (f := s.readBound)
      (List.mem_map_of_mem (f := Relation.identityView) hr)
    exact ⟨_, ho, ν, (h r hr).hasRow_identityView.mpr hrow,
      fun v hv hno => absurd (var_mem_of_mem_identityViews h _ ho v hv) hno, rfl⟩

/-- A union of unbound tables of one arity is a table of that arity. -/
theorem Tabular.union {id : Nat} (hne : rs ≠ []) (h : ∀ r ∈ rs, s.Tabular n r) :
    s.Tabular n (.union id (rs.map Relation.identityView)) := by
  have hcolumns := correspondence_identityViews hne h
  refine ⟨?_, fun t ht => ?_, ?_⟩
  · rw [Relation.arity, hcolumns, Var.length_positional]
  · obtain ⟨r, hr, ht⟩ := (mem_rows_union_unbound hne h).mp ht
    exact (h r hr).length t ht
  · rw [read_union, hcolumns]
    exact Reading.exact_union (nodup_positional n) (proper_and_exact_identityViews h)
      (var_mem_of_mem_identityViews h)

/-! ## Intersection -/

theorem exists_var_mem_identityViews (hne : rs ≠ []) (h : ∀ r ∈ rs, s.Tabular n r) :
    ∀ v ∈ Var.positional n,
      ∃ o ∈ (rs.map Relation.identityView).map s.readBound, .var v ∈ o.slots := by
  intro v hv
  obtain ⟨o, ho⟩ := List.exists_mem_of_ne_nil
    ((rs.map Relation.identityView).map s.readBound) (by simpa using hne)
  exact ⟨o, ho, var_mem_of_mem_identityViews h o ho v hv⟩

/-- An intersection of unbound tables enumerates what all of them enumerate. -/
theorem mem_rows_intersection_unbound {id : Nat} (hne : rs ≠ [])
    (h : ∀ r ∈ rs, s.Tabular n r) :
    t ∈ (s.rows (.intersection id (rs.map Relation.identityView))).rows ↔
      ∀ r ∈ rs, t ∈ (s.rows r).rows := by
  have hlen : ∀ t, (∀ r ∈ rs, t ∈ (s.rows r).rows) → t.length = n := by
    intro t ht
    obtain ⟨r, hr⟩ := List.exists_mem_of_ne_nil rs hne
    exact (h r hr).length t (ht r hr)
  rw [rows, read_intersection, correspondence_identityViews hne h,
    Reading.mem_rows_join_of_exact (proper_and_exact_identityViews h)
      (exists_var_mem_identityViews hne h), ← exists_positional_iff hlen]
  refine exists_congr fun ν => and_congr_left fun _ => ?_
  rw [List.forall_mem_map, List.forall_mem_map]
  exact forall₂_congr fun r hr => (h r hr).hasRow_identityView

theorem Tabular.intersection {id : Nat} (hne : rs ≠ []) (h : ∀ r ∈ rs, s.Tabular n r) :
    s.Tabular n (.intersection id (rs.map Relation.identityView)) := by
  have hcolumns := correspondence_identityViews hne h
  refine ⟨?_, fun t ht => ?_, ?_⟩
  · rw [Relation.arity, hcolumns, Var.length_positional]
  · obtain ⟨r, hr⟩ := List.exists_mem_of_ne_nil rs hne
    exact (h r hr).length t ((mem_rows_intersection_unbound hne h).mp ht r hr)
  · rw [read_intersection, hcolumns]
    exact Reading.exact_join (nodup_positional n) (proper_and_exact_identityViews h)
      (exists_var_mem_identityViews hne h)

end Store

end RelationAlgebra
