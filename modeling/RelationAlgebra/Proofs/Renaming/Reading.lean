import RelationAlgebra.Proofs.Reading
import RelationAlgebra.Proofs.Renaming.Extension
import RelationAlgebra.Proofs.Renaming.Matching

/-!
# Combinators over other atoms

A reading renames another one if it enumerates the renamed rows in the same order, and lists and
accepts the renamed tuples. Every combinator of renamed readings renames the combinator of the
original ones: the search finds the renamed solutions in the same order, and the active domain of a
union consists of the renamed atoms, again in the same order.
-/

namespace RelationAlgebra.Reading

variable {p : Atom → Atom} {r r' : Reading} {o o' : Bound Reading} {os os' : List (Bound Reading)}
  {output : List Var} {α : Assignment}

/-- Whether `r'` says of other atoms what `r` says. -/
structure Renames (p : Atom → Atom) (r r' : Reading) : Prop where
  extension : r'.extension = r.extension.rename p
  lists : ∀ t, r'.lists (t.map p) = r.lists t
  accepts : ∀ t, r'.accepts (t.map p) = r.accepts t

/-- Whether `o'` is the operand `o` with other atoms, in its bindings and in what its relation
says. -/
structure RenamesBound (p : Atom → Atom) (o o' : Bound Reading) : Prop where
  slots : o'.slots = o.slots.rename p
  relation : o.relation.Renames p o'.relation

/-! ## Stored relations -/

/-- A stored relation with renamed rows lists, accepts and enumerates the renamed tuples. -/
theorem renames_stored (hp : Function.Injective p) (ps : PropertySet) (x : Extension) :
    (stored ps x).Renames p (stored ps (x.rename p)) := by
  refine ⟨rfl, fun t => x.contains_rename hp t, fun t => ?_⟩
  have hcontains := x.contains_rename hp t
  simp only [stored, List.length_map, Extension.arity_rename, hcontains]
  congr 2
  match t with
  | [] | [_] | _ :: _ :: _ :: _ => rfl
  | [a, b] => exact ps.induces_rename hp a b x

/-! ## The search -/

/-- A renamed operand extends a renamed assignment in the renamed ways, in the same order. -/
theorem extend_rename (hp : Function.Injective p) (h : RenamesBound p o o') (α : Assignment) :
    extend o' (α.rename p) = (extend o α).map (Assignment.rename p) := by
  have hrow : (α.rename p).row? o'.slots = (α.row? o.slots).map (List.map p) := by
    rw [h.slots, Assignment.row?_rename]
  cases hsettled : α.row? o.slots with
  | some row =>
    rw [hsettled, Option.map_some] at hrow
    rw [extend_of_settled hsettled, extend_of_settled hrow, h.relation.lists]
    by_cases hlists : o.relation.lists row = true
    · rw [if_pos hlists, if_pos hlists]
      rfl
    · rw [if_neg hlists, if_neg hlists]
      rfl
  | none =>
    rw [hsettled, Option.map_none] at hrow
    rw [extend_of_open hsettled, extend_of_open hrow, h.relation.extension, Extension.rows_rename,
      List.filterMap_map, List.map_filterMap]
    congr 1
    funext row
    rw [Function.comp, h.slots, Assignment.unify_rename hp]

/-- Over other atoms the search finds the same solutions, in the same order. -/
theorem solutions_rename (hp : Function.Injective p) (h : List.Forall₂ (RenamesBound p) os os')
    (α : Assignment) :
    solutions os' (α.rename p) = (solutions os α).map (Assignment.rename p) := by
  induction h generalizing α with
  | nil => rfl
  | cons ho _ ih =>
    rw [solutions, solutions, extend_rename hp ho, List.flatMap_map, List.map_flatMap]
    congr 1
    funext β
    exact ih β

theorem satisfiable_rename (hp : Function.Injective p)
    (h : List.Forall₂ (RenamesBound p) os os') (α : Assignment) :
    satisfiable os' (α.rename p) = satisfiable os α := by
  rw [Bool.eq_iff_iff, satisfiable_iff, satisfiable_iff, solutions_rename hp h]
  simp

theorem emit_rename (hp : Function.Injective p) (output : List Var) (x : Extension)
    (α : Assignment) : emit output (x.rename p) (α.rename p) = (emit output x α).rename p := by
  rw [emit, emit, Assignment.project?_rename]
  cases α.project? output with
  | none => rfl
  | some t => exact x.push_rename hp t

theorem foldl_emit_rename (hp : Function.Injective p) (output : List Var) (αs : List Assignment)
    (x : Extension) :
    (αs.map (Assignment.rename p)).foldl (emit output) (x.rename p) =
      (αs.foldl (emit output) x).rename p := by
  rw [List.foldl_map]
  exact List.foldl_hom (Extension.rename p) fun x α => emit_rename hp output x α

/-! ## The combinators -/

/-- A derived reading lists a tuple by its assignment, and accepts what it lists. -/
theorem renames_derived {rows rows' : Thunk Extension} {witnessed witnessed' : Assignment → Bool}
    (hrows : rows'.get = rows.get.rename p)
    (hwitnessed : ∀ α, witnessed' (α.rename p) = witnessed α) :
    (derived output rows witnessed).Renames p (derived output rows' witnessed') := by
  have hlists : ∀ t, (derived output rows' witnessed').lists (t.map p) =
      (derived output rows witnessed).lists t := by
    intro t
    simp only [derived, List.length_map, Assignment.ofOutput_rename, hwitnessed]
  exact ⟨hrows, hlists, hlists⟩

/-- Induction on the operands has been done for the solutions; a join adds the projection. -/
theorem renames_join (hp : Function.Injective p) (h : List.Forall₂ (RenamesBound p) os os') :
    (join output os).Renames p (join output os') := by
  have hrows : (join output os').extension = (join output os).extension.rename p := by
    have hsolutions := solutions_rename hp h []
    rw [Assignment.rename_nil] at hsolutions
    rw [extension_join, extension_join, hsolutions, ← foldl_emit_rename hp, Extension.rename_empty]
  exact renames_derived hrows fun α => satisfiable_rename hp h α

/-- The domain of renamed operands is the renamed domain, atoms in the same order. -/
theorem activeDomain_rename (hp : Function.Injective p)
    (h : List.Forall₂ (RenamesBound p) os os') : activeDomain os' = (activeDomain os).map p := by
  have hatoms : (os'.flatMap fun o => o.relation.extension.atoms) =
      (os.flatMap fun o => o.relation.extension.atoms).map p := by
    induction h with
    | nil => rfl
    | cons ho _ ih =>
      rw [List.flatMap_cons, List.flatMap_cons, List.map_append, ih, ho.relation.extension,
        Extension.atoms_rename]
  rw [activeDomain, activeDomain, hatoms, eraseDups_map hp]

theorem emitOperand_rename (hp : Function.Injective p) (h : RenamesBound p o o')
    (output : List Var) (domain : List Atom) (x : Extension) :
    emitOperand output (domain.map p) (x.rename p) o' =
      (emitOperand output domain x o).rename p := by
  have hsolutions := solutions_rename hp (.cons h .nil) []
  rw [Assignment.rename_nil] at hsolutions
  rw [emitOperand_eq, emitOperand_eq, hsolutions, h.slots, Slots.vars_rename, List.foldl_map]
  refine List.foldl_hom (Extension.rename p) fun x α => ?_
  rw [Assignment.completions_rename, foldl_emit_rename hp]

/-- A union emits operand by operand, so each round is renamed by the round before. -/
theorem renames_union (hp : Function.Injective p) (h : List.Forall₂ (RenamesBound p) os os') :
    (union output os).Renames p (union output os') := by
  refine renames_derived ?rows ?witnessed
  case rows =>
    have hround : ∀ (domain : List Atom) (x : Extension),
        os'.foldl (emitOperand output (domain.map p)) (x.rename p) =
          (os.foldl (emitOperand output domain) x).rename p := by
      intro domain
      induction h with
      | nil => exact fun _ => rfl
      | cons ho _ ih =>
        intro x
        rw [List.foldl_cons, List.foldl_cons, emitOperand_rename hp ho, ih]
    have hrows := hround (activeDomain os) (.empty output.length)
    rw [← activeDomain_rename hp h, Extension.rename_empty] at hrows
    exact hrows
  case witnessed =>
    intro α
    induction h with
    | nil => rfl
    | cons ho _ ih => rw [List.any_cons, List.any_cons, ih, satisfiable_rename hp (.cons ho .nil)]

theorem round_rename (hp : Function.Injective p) (h : RenamesBound p o o') (output : List Var)
    (x : Extension) (row : Tuple) :
    round output o' (x.rename p) (row.map p) = (round output o x row).rename p := by
  have hunify := Assignment.unify_rename hp [] o.slots row
  rw [Assignment.rename_nil] at hunify
  rw [round, round, h.slots, hunify, h.relation.accepts]
  cases Assignment.unify [] o.slots row with
  | none => rfl
  | some α =>
    simp only [Option.map_some, emit_rename hp]
    split <;> rfl

/-- What is taken off the renamed ambient rows is what was taken off before, renamed. -/
theorem renames_complement (hp : Function.Injective p) (h : RenamesBound p o o')
    (ambient : Extension) :
    (complement output ambient o).Renames p (complement output (ambient.rename p) o') := by
  have hrows : (complement output (ambient.rename p) o').extension =
      (complement output ambient o).extension.rename p := by
    rw [extension_complement, extension_complement, Extension.rows_rename, List.foldl_map,
      ← Extension.rename_empty p]
    exact List.foldl_hom (Extension.rename p) fun x row => round_rename hp h output x row
  unfold complement at hrows ⊢
  refine renames_derived hrows fun α => ?_
  have hrow : (α.rename p).row? o'.slots = (α.row? o.slots).map (List.map p) := by
    rw [h.slots, Assignment.row?_rename]
  rw [hrow]
  cases α.row? o.slots with
  | some row => simp only [Option.map_some, ambient.contains_rename hp, h.relation.accepts]
  | none =>
    simp only [Option.map_none, Extension.rows_rename, List.any_map]
    congr 1
    funext row
    simp only [Function.comp, h.slots, Assignment.unify_rename hp, Option.isSome_map,
      h.relation.accepts]

end RelationAlgebra.Reading
