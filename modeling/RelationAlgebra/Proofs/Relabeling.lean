import Mathlib.SetTheory.Cardinal.Arithmetic
import RelationAlgebra.Proofs.Pattern
import RelationAlgebra.Proofs.Renaming.Extension
import RelationAlgebra.Proofs.Renaming.Matching
import RelationAlgebra.Proofs.Union

/-!
# Other labels for the columns

Variables are compared with each other and shown, and nothing else is done with them. So other
labels for the variables of all operands, distinct ones for distinct variables, change neither the
order of the columns nor which columns an operand leaves open, and the search goes through the same
rows with the relabelled assignments. Unions, intersections and complements of relabelled operands
therefore enumerate the same rows in the same order and accept the same tuples
(`Store.rebinds_relabel`), whatever their operands are built of.
-/

namespace RelationAlgebra

variable {f : Var → Var}

/-! ## Bindings -/

/-- The binding with another label for its variable. -/
def Binding.relabel (f : Var → Var) : Binding → Binding
  | var v => var (f v)
  | wildcard => wildcard
  | literal a => literal a

theorem Binding.var?_relabel (f : Var → Var) (b : Binding) :
    (b.relabel f).var? = b.var?.map f := by
  cases b <;> rfl

/-- An injective relabeling keeps the columns in their order. -/
theorem Slots.vars_relabel (hf : Function.Injective f) (slots : Slots) :
    Slots.vars (slots.map (Binding.relabel f)) = slots.vars.map f := by
  have hvars : (slots.map (Binding.relabel f)).filterMap Binding.var? =
      (slots.filterMap Binding.var?).map f := by
    rw [List.filterMap_map, List.map_filterMap]
    exact List.filterMap_congr fun b _ => b.var?_relabel f
  rw [vars_eq_eraseDups, vars_eq_eraseDups, hvars, eraseDups_map hf]

/-- The output columns of relabeled operands are the relabeled columns. -/
theorem Bound.correspondence_relabel {α : Type} (hf : Function.Injective f)
    (operands : List (Bound α)) :
    correspondence (operands.map (rebind (.relabel f))) = (correspondence operands).map f := by
  rw [correspondence_rebind, Slots.vars_relabel hf, correspondence_eq_vars]

/-! ## Assignments -/

namespace Assignment

/-- The assignment with other labels for its variables. -/
def relabel (f : Var → Var) (α : Assignment) : Assignment := α.map fun e => (f e.1, e.2)

theorem relabel_nil (f : Var → Var) : relabel f [] = [] := rfl

theorem relabel_assign (f : Var → Var) (α : Assignment) (v : Var) (x : Atom) :
    (α.assign v x).relabel f = (α.relabel f).assign (f v) x := rfl

/-- An assignment is looked up under the new label. -/
theorem get?_relabel (hf : Function.Injective f) (α : Assignment) (v : Var) :
    (α.relabel f).get? (f v) = α.get? v := by
  induction α with
  | nil => rfl
  | cons e α ih =>
    have hcons : relabel f (e :: α) = (relabel f α).assign (f e.1) e.2 := rfl
    have hcons' : e :: α = assign α e.1 e.2 := rfl
    rw [hcons, hcons', get?_assign, get?_assign, ih]
    simp only [hf.eq_iff]

theorem slot?_relabel (hf : Function.Injective f) (α : Assignment) (b : Binding) :
    (α.relabel f).slot? (b.relabel f) = α.slot? b := by
  cases b with
  | var v => exact get?_relabel hf α v
  | wildcard | literal a => rfl

theorem row?_relabel (hf : Function.Injective f) (α : Assignment) (slots : Slots) :
    (α.relabel f).row? (slots.map (Binding.relabel f)) = α.row? slots := by
  have hslot : ∀ b : Binding,
      (α.relabel f).slot? (b.relabel f) = (α.slot? b).map id := by
    intro b
    rw [slot?_relabel hf, Option.map_id_fun, id]
  rw [row?, row?, mapM_map_option hslot, List.map_id_fun, Option.map_id_fun, id]

theorem project?_relabel (hf : Function.Injective f) (α : Assignment) (output : List Var) :
    (α.relabel f).project? (output.map f) = α.project? output := by
  have hvalue : ∀ v : Var, (α.relabel f).get? (f v) = (α.get? v).map id := by
    intro v
    rw [get?_relabel hf, Option.map_id_fun, id]
  rw [project?, project?, mapM_map_option hvalue, List.map_id_fun, Option.map_id_fun, id]

theorem ofOutput_relabel (f : Var → Var) (output : List Var) (t : Tuple) :
    ofOutput (output.map f) t = (ofOutput output t).relabel f :=
  List.zip_map_left

/-- Distinct variables keep distinct labels, so a variable has a value just if it had one before. -/
theorem unify_relabel (hf : Function.Injective f) (α : Assignment) (slots : Slots) (row : Tuple) :
    (α.relabel f).unify (slots.map (Binding.relabel f)) row =
      (α.unify slots row).map (relabel f) := by
  induction slots generalizing α row with
  | nil => cases row <;> rfl
  | cons b slots ih =>
    cases row with
    | nil => cases b <;> rfl
    | cons x row =>
      rw [List.map_cons]
      cases b with
      | wildcard => exact ih α row
      | literal a =>
        simp only [Binding.relabel, unify]
        by_cases h : a = x
        · rw [if_pos h, if_pos h]
          exact ih α row
        · rw [if_neg h, if_neg h]
          rfl
      | var v =>
        simp only [Binding.relabel, unify, get?_relabel hf]
        cases α.get? v with
        | none =>
          rw [← relabel_assign]
          exact ih (α.assign v x) row
        | some y =>
          dsimp only
          by_cases h : y = x
          · rw [if_pos h, if_pos h]
            exact ih α row
          · rw [if_neg h, if_neg h]
            rfl

/-- Completions of relabeled variables are relabeled completions, in the same order. -/
theorem completions_relabel (f : Var → Var) (domain : List Atom) (vs : List Var)
    (α : Assignment) :
    completions domain (vs.map f) (α.relabel f) = (completions domain vs α).map (relabel f) := by
  induction vs generalizing α with
  | nil => rfl
  | cons v vs ih =>
    rw [List.map_cons, completions, completions, List.map_flatMap]
    congr 1
    funext x
    rw [← relabel_assign, ih]

end Assignment

/-! ## Readings -/

namespace Reading

variable {output : List Var}

/-- A relabeled operand extends a relabeled assignment as it did before. -/
theorem extend_relabel (hf : Function.Injective f) (o : Bound Reading) (α : Assignment) :
    extend (o.rebind (.relabel f)) (α.relabel f) = (extend o α).map (Assignment.relabel f) := by
  have hrow : (α.relabel f).row? (o.rebind (.relabel f)).slots = α.row? o.slots :=
    Assignment.row?_relabel hf α o.slots
  cases hsettled : α.row? o.slots with
  | some row =>
    rw [hsettled] at hrow
    rw [extend_of_settled hsettled, extend_of_settled hrow, Bound.rebind]
    split <;> rfl
  | none =>
    rw [hsettled] at hrow
    rw [extend_of_open hsettled, extend_of_open hrow, List.map_filterMap]
    exact List.filterMap_congr fun row _ => Assignment.unify_relabel hf α o.slots row

/-- Under other labels the search finds the same solutions, in the same order. -/
theorem solutions_relabel (hf : Function.Injective f) (os : List (Bound Reading))
    (α : Assignment) :
    solutions (os.map (Bound.rebind (.relabel f))) (α.relabel f) =
      (solutions os α).map (Assignment.relabel f) := by
  induction os generalizing α with
  | nil => rfl
  | cons o os ih =>
    rw [List.map_cons, solutions, solutions, extend_relabel hf, List.flatMap_map,
      List.map_flatMap]
    congr 1
    funext β
    exact ih β

/-- Relabeling makes no search succeed and none fail. -/
theorem satisfiable_relabel (hf : Function.Injective f) (os : List (Bound Reading))
    (α : Assignment) :
    satisfiable (os.map (Bound.rebind (.relabel f))) (α.relabel f) = satisfiable os α := by
  rw [Bool.eq_iff_iff, satisfiable_iff, satisfiable_iff, solutions_relabel hf]
  simp

/-- The tuples that are emitted do not show the labels. -/
theorem foldl_emit_relabel (hf : Function.Injective f) (output : List Var)
    (αs : List Assignment) (x : Extension) :
    (αs.map (Assignment.relabel f)).foldl (emit (output.map f)) x =
      αs.foldl (emit output) x := by
  have hemit : ∀ (x : Extension) (α : Assignment),
      emit (output.map f) x (α.relabel f) = emit output x α := by
    intro x α
    rw [emit, emit, Assignment.project?_relabel hf]
  rw [List.foldl_map]
  simp only [hemit]

/-- A derived reading asks its columns for their number and for the assignment of a tuple. -/
theorem derived_relabel {rows : Thunk Extension} {witnessed witnessed' : Assignment → Bool}
    (hwitnessed : ∀ α, witnessed' (α.relabel f) = witnessed α) :
    derived (output.map f) rows witnessed' = derived output rows witnessed := by
  simp only [derived, List.length_map, Assignment.ofOutput_relabel, hwitnessed]

/-- A join does not depend on the labels of its variables. -/
theorem join_relabel (hf : Function.Injective f) (output : List Var) (os : List (Bound Reading)) :
    join (output.map f) (os.map (Bound.rebind (.relabel f))) = join output os := by
  have hsolutions := solutions_relabel hf os []
  rw [Assignment.relabel_nil] at hsolutions
  have hrows : (search (fun α x => .yield (emit (output.map f) x α))
        (os.map (Bound.rebind (.relabel f))) [] (.empty (output.map f).length)).value =
      (search (fun α x => .yield (emit output x α)) os [] (.empty output.length)).value := by
    rw [search_yield, search_yield, hsolutions, foldl_emit_relabel hf, List.length_map]
  rw [join, join, hrows]
  exact derived_relabel (satisfiable_relabel hf os)

/-- An operand leaves the same columns open, and they range over the same atoms. -/
theorem emitOperand_relabel (hf : Function.Injective f) (output : List Var) (domain : List Atom)
    (x : Extension) (o : Bound Reading) :
    emitOperand (output.map f) domain x (o.rebind (.relabel f)) =
      emitOperand output domain x o := by
  have hsolutions := solutions_relabel hf [o] []
  rw [Assignment.relabel_nil, List.map_singleton] at hsolutions
  have hmissing : ((output.map f).filter fun v =>
        !(o.rebind (.relabel f)).slots.vars.contains v) =
      (output.filter fun v => !o.slots.vars.contains v).map f := by
    rw [List.filter_map, Bound.rebind, Slots.vars_relabel hf]
    refine congrArg (List.map f) (List.filter_congr fun v _ => ?_)
    rw [Function.comp, contains_map hf]
  rw [emitOperand_eq, emitOperand_eq, hsolutions, hmissing, List.foldl_map]
  simp only [Assignment.completions_relabel, foldl_emit_relabel hf]

theorem union_relabel (hf : Function.Injective f) (output : List Var)
    (os : List (Bound Reading)) :
    union (output.map f) (os.map (Bound.rebind (.relabel f))) = union output os := by
  have hdomain : activeDomain (os.map (Bound.rebind (.relabel f))) = activeDomain os := by
    rw [activeDomain, activeDomain, List.flatMap_map]
    rfl
  have hrows : (os.map (Bound.rebind (.relabel f))).foldl
        (emitOperand (output.map f) (activeDomain (os.map (Bound.rebind (.relabel f)))))
        (.empty (output.map f).length) =
      os.foldl (emitOperand output (activeDomain os)) (.empty output.length) := by
    rw [List.foldl_map, hdomain, List.length_map]
    simp only [emitOperand_relabel hf]
  rw [union, union, hrows]
  refine derived_relabel fun α => ?_
  rw [List.any_map]
  congr 1
  funext o
  exact satisfiable_relabel hf [o] α

theorem complement_eq (output : List Var) (ambient : Extension) (o : Bound Reading) :
    complement output ambient o =
      derived output (.mk fun _ => ambient.rows.foldl (round output o) (.empty output.length))
        (fun α =>
          match α.row? o.slots with
          | some row => ambient.contains row && !o.relation.accepts row
          | none => ambient.rows.any fun row =>
              (α.unify o.slots row).isSome && !o.relation.accepts row) := rfl

/-- A complement does not depend on the labels of its variables. -/
theorem complement_relabel (hf : Function.Injective f) (output : List Var) (ambient : Extension)
    (o : Bound Reading) :
    complement (output.map f) ambient (o.rebind (.relabel f)) = complement output ambient o := by
  have hround : round (output.map f) (o.rebind (.relabel f)) = round output o := by
    funext x row
    have hunify := Assignment.unify_relabel hf [] o.slots row
    rw [Assignment.relabel_nil] at hunify
    rw [round, round, Bound.rebind, hunify]
    cases Assignment.unify [] o.slots row with
    | none => rfl
    | some α => simp only [Option.map_some, emit, Assignment.project?_relabel hf]
  rw [complement_eq, complement_eq, hround, List.length_map]
  refine derived_relabel fun α => ?_
  simp only [Bound.rebind, Assignment.row?_relabel hf, Assignment.unify_relabel hf,
    Option.isSome_map]

end Reading

/-! ## Relations -/

/-- Labels that are distinct for the listed variables can be completed to labels that are distinct
for all variables: few variables are listed, and there is no end of labels. -/
theorem Var.exists_injective {vs : List Var} (hf : Set.InjOn f {v | v ∈ vs}) :
    ∃ g : Var → Var, Function.Injective g ∧ ∀ v ∈ vs, g v = f v := by
  have hinfinite : Infinite Var := Infinite.of_injective Var.index fun _ _ => Var.index.inj
  have hfew : Cardinal.mk {v | v ∈ vs} < Cardinal.mk Var :=
    (List.finite_toSet vs).lt_aleph0.trans_le (Cardinal.aleph0_le_mk Var)
  obtain ⟨g, hg⟩ := Cardinal.extend_function_of_lt ⟨_, hf.injective⟩ hfew ⟨Equiv.refl Var⟩
  exact ⟨g, g.injective, fun v hv => hg ⟨v, hv⟩⟩

/-- What becomes of operands depends on the labels of their own variables only. -/
theorem Bound.map_relabel_congr {α : Type} {g : Var → Var} {operands : List (Bound α)}
    (h : ∀ v ∈ correspondence operands, g v = f v) :
    operands.map (rebind (.relabel g)) = operands.map (rebind (.relabel f)) := by
  refine List.map_congr_left fun o ho => ?_
  have hslots : o.slots.map (Binding.relabel g) = o.slots.map (Binding.relabel f) := by
    refine List.map_congr_left fun b hb => ?_
    cases b with
    | var v => rw [Binding.relabel, Binding.relabel, h v (mem_correspondence.mpr ⟨o, ho, hb⟩)]
    | wildcard | literal => rfl
  rw [rebind, rebind, hslots]

namespace Store

variable {s : Store} {r r' : Relation}

/-- Whether two relations say the same, row for row: they have as many columns, enumerate the same
rows in the same order and accept the same tuples. -/
structure Coincide (s : Store) (r r' : Relation) : Prop where
  arity : r'.arity = r.arity
  rows : s.rows r' = s.rows r
  accepts : ∀ t, s.accepts r' t = s.accepts r t

/-- Relations of one arity coincide if they are read alike. -/
theorem coincide_of_read (harity : r'.arity = r.arity) (hread : s.read r' = s.read r) :
    s.Coincide r r' where
  arity := harity
  rows := congrArg Reading.extension hread
  accepts t := congrArg (fun reading => reading.accepts t) hread

theorem readBound_rebind (s : Store) (g : Binding → Binding) (v : View) :
    s.readBound (v.rebind g) = (s.readBound v).rebind g := by
  rw [readBound_eq, readBound_eq]
  rfl

theorem map_readBound_rebind (s : Store) (g : Binding → Binding) (views : List View) :
    (views.map (Bound.rebind g)).map s.readBound =
      (views.map s.readBound).map (Bound.rebind g) := by
  rw [List.map_map, List.map_map]
  exact List.map_congr_left fun v _ => s.readBound_rebind g v

theorem coincide_union (hf : Function.Injective f) (id id' : Nat) (views : List View) :
    s.Coincide (.union id views) (.union id' (views.map (Bound.rebind (.relabel f)))) := by
  have hcolumns := Bound.correspondence_relabel hf views
  refine coincide_of_read ?_ ?_
  · rw [Relation.arity, Relation.arity, hcolumns, List.length_map]
  · rw [read_union, read_union, hcolumns, map_readBound_rebind, Reading.union_relabel hf]

theorem coincide_intersection (hf : Function.Injective f) (id id' : Nat) (views : List View) :
    s.Coincide (.intersection id views)
      (.intersection id' (views.map (Bound.rebind (.relabel f)))) := by
  have hcolumns := Bound.correspondence_relabel hf views
  refine coincide_of_read ?_ ?_
  · rw [Relation.arity, Relation.arity, hcolumns, List.length_map]
  · rw [read_intersection, read_intersection, hcolumns, map_readBound_rebind,
      Reading.join_relabel hf]

/-- The complement is taken in the same rows, as the operand is of the same relation. -/
theorem coincide_complement (hf : Function.Injective f) (id id' : Nat) (v : View)
    (registry : String) :
    s.Coincide (.complement id v registry)
      (.complement id' (v.rebind (.relabel f)) registry) := by
  have hcolumns := Bound.correspondence_relabel hf [v]
  rw [List.map_singleton] at hcolumns
  refine coincide_of_read ?_ ?_
  · rw [Relation.arity, Relation.arity, hcolumns, List.length_map]
  · rw [read_complement, read_complement, hcolumns, readBound_rebind]
    exact Reading.complement_relabel hf _ _ _

/-- Other labels for the variables of all operands, distinct ones for distinct variables, make no
difference to the union, the intersection and the complement of any relations: it has as many
columns, its rows are the same in the same order, and it accepts the same tuples. -/
theorem rebinds_relabel (s : Store) {views : List View}
    (hf : Set.InjOn f {v | v ∈ Bound.correspondence views}) (registry : String) :
    (views ≠ [] → Relation.Rebinds registry .union views (.relabel f) s.Coincide ∧
        Relation.Rebinds registry .intersection views (.relabel f) s.Coincide) ∧
      (views.length = 1 →
        Relation.Rebinds registry .complement views (.relabel f) s.Coincide) := by
  obtain ⟨g, hg, heq⟩ := Var.exists_injective hf
  have hviews := Bound.map_relabel_congr heq
  refine ⟨fun hne => ?_, fun hone => ?_⟩
  · have hne' : views.map (Bound.rebind (.relabel f)) ≠ [] := by simpa using hne
    refine ⟨fun id id' => ⟨_, _, Relation.derive_union hne, Relation.derive_union hne', rfl, ?_⟩,
      fun id id' =>
        ⟨_, _, Relation.derive_intersection hne, Relation.derive_intersection hne', rfl, ?_⟩⟩
    · exact hviews ▸ coincide_union hg id id' views
    · exact hviews ▸ coincide_intersection hg id id' views
  · obtain ⟨v, rfl⟩ := List.length_eq_one_iff.mp hone
    rw [List.map_singleton, List.map_singleton, List.singleton_inj] at hviews
    exact fun id id' => ⟨_, _, rfl, rfl, rfl, hviews ▸ coincide_complement hg id id' v registry⟩

/-- An operand that is a union itself, beside a stored one. -/
def kinshipKnownWomen : List View :=
  [⟨.union 9 (kinshipKnown.map Bound.view), [.var (.named "A"), .var (.named "B")]⟩,
   ⟨.base Session.kinshipFemale, [.var (.named "B")]⟩]

/-- A positional label for one variable, and its old label for the other. -/
def kinshipLabels (v : Var) : Var :=
  if v = .named "A" then .index 1 else if v = .named "B" then .named "A" else v

theorem rebinds_relabel_kinshipKnownWomen :
    Set.InjOn kinshipLabels {v | v ∈ Bound.correspondence kinshipKnownWomen} ∧
      Relation.Rebinds "main" .union kinshipKnownWomen (.relabel kinshipLabels)
        Session.kinship.store.Coincide ∧
      Relation.Rebinds "main" .intersection kinshipKnownWomen (.relabel kinshipLabels)
        Session.kinship.store.Coincide ∧
      Relation.Rebinds "main" .complement (kinshipKnownWomen.take 1) (.relabel kinshipLabels)
        Session.kinship.store.Coincide := by
  have hlabels : ∀ v ∈ [Var.named "A", .named "B"], ∀ w ∈ [Var.named "A", .named "B"],
      kinshipLabels v = kinshipLabels w → v = w := by decide
  have hcolumns : Bound.correspondence kinshipKnownWomen = [.named "A", .named "B"] := by decide
  have hdistinct : Set.InjOn kinshipLabels {v | v ∈ Bound.correspondence kinshipKnownWomen} := by
    rw [hcolumns]
    exact fun v hv w hw => hlabels v hv w hw
  have hdistinct' :
      Set.InjOn kinshipLabels {v | v ∈ Bound.correspondence (kinshipKnownWomen.take 1)} := by
    have hcolumns' : Bound.correspondence (kinshipKnownWomen.take 1) =
        [.named "A", .named "B"] := by decide
    rw [hcolumns']
    exact fun v hv w hw => hlabels v hv w hw
  have hboth := (rebinds_relabel Session.kinship.store hdistinct "main").1
    (by simp [kinshipKnownWomen])
  exact ⟨hdistinct, hboth.1, hboth.2,
    (rebinds_relabel Session.kinship.store hdistinct' "main").2 rfl⟩

-- one label for two variables does make a difference: it ties their slots together
example :
    (Session.kinship.store.rows (.intersection 9
      [⟨.base Session.kinshipParent, [.var (.named "A"), .var (.named "B")]⟩])).size = 2 ∧
    (Session.kinship.store.rows (.intersection 9
      ([⟨.base Session.kinshipParent, [.var (.named "A"), .var (.named "B")]⟩].map
        (Bound.rebind (.relabel fun _ => .index 0))))).size = 0 := by decide

end Store

end RelationAlgebra
