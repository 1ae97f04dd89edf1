import Mathlib.Data.List.Basic
import RelationAlgebra.Property.Inducer
import RelationAlgebra.Proofs.Except
import RelationAlgebra.Proofs.Extension
import RelationAlgebra.Relation

/-!
# Rows of other atoms

An injective map on atoms renames the rows of an extension. Nothing that is done with rows looks at
atoms otherwise than by asking whether two of them are equal. So membership, the rows found by an
atom in a slot, the chains of pairs, the declared rules and the guards all say of the renamed atoms
what they say of the original ones, and rows are inserted in the same order. Each operation has one
lemma, which says how it commutes with the renaming.
-/

namespace RelationAlgebra

variable {p : Atom → Atom}

/-- Renaming by an injective map merges nothing, so repeats are dropped before or after it alike. -/
theorem eraseDups_map {α β : Type} [DecidableEq α] [DecidableEq β] {f : α → β}
    (hf : Function.Injective f) (xs : List α) : (xs.map f).eraseDups = xs.eraseDups.map f := by
  induction xs using List.reverseRecOn with
  | nil => rfl
  | append_singleton xs x ih =>
    have hmem : f x ∈ xs.map f ↔ x ∈ xs := List.mem_map_of_injective hf
    rw [List.map_append, List.map_singleton, eraseDups_concat, eraseDups_concat, ih]
    by_cases h : x ∈ xs
    · rw [if_pos h, if_pos (hmem.mpr h)]
    · rw [if_neg h, if_neg (mt hmem.mp h), List.map_append, List.map_singleton]

/-- An injective map neither makes nor loses members. -/
theorem contains_map {α β : Type} [BEq α] [LawfulBEq α] [BEq β] [LawfulBEq β] {f : α → β}
    (hf : Function.Injective f) (xs : List α) (x : α) :
    (xs.map f).contains (f x) = xs.contains x := by
  rw [Bool.eq_iff_iff, List.contains_iff_mem, List.contains_iff_mem, List.mem_map_of_injective hf]

/-! ## Errors -/

/-- The error with other atoms in the pair that it names. -/
def RelationError.rename (p : Atom → Atom) : RelationError → RelationError
  | .propertyViolation relation property pair => .propertyViolation relation property (pair.map p)
  | e => e

/-- The error without the text of the operand that it shows. -/
def RelationError.kind : RelationError → RelationError
  | .unsupportedCombinator combinator (.bound _) => .unsupportedCombinator combinator (.bound "")
  | e => e

/-- Whether an error is another one with other atoms. How an operand is shown does not matter. -/
def RelationError.Alike (p : Atom → Atom) (e e' : RelationError) : Prop :=
  e'.kind = (e.rename p).kind

namespace Extension

variable {x y : Extension}

/-- The extension with other atoms in its rows. -/
def rename (p : Atom → Atom) (x : Extension) : Extension := { x with rows := x.rows.map (List.map p) }

@[simp]
theorem arity_rename (p : Atom → Atom) (x : Extension) : (x.rename p).arity = x.arity := rfl

@[simp]
theorem rows_rename (p : Atom → Atom) (x : Extension) :
    (x.rename p).rows = x.rows.map (List.map p) := rfl

@[simp]
theorem rename_empty (p : Atom → Atom) (arity : Nat) : (empty arity).rename p = empty arity := rfl

@[simp]
theorem size_rename (p : Atom → Atom) (x : Extension) : (x.rename p).size = x.size := by
  simp [size]

theorem atoms_rename (p : Atom → Atom) (x : Extension) : (x.rename p).atoms = x.atoms.map p := by
  rw [atoms, atoms, rows_rename, List.map_flatten]

/-- A renamed extension holds just the renamed rows. -/
theorem contains_rename (hp : Function.Injective p) (x : Extension) (t : Tuple) :
    (x.rename p).contains (t.map p) = x.contains t :=
  contains_map (List.map_injective_iff.mpr hp) x.rows t

/-- A renamed row is new just if the original one is. -/
theorem push_rename (hp : Function.Injective p) (x : Extension) (t : Tuple) :
    (x.rename p).push (t.map p) = (x.push t).rename p := by
  unfold push
  rw [contains_rename hp]
  by_cases h : x.contains t = true
  · rw [if_pos h, if_pos h]
  · rw [if_neg h, if_neg h]
    simp [rename]

/-- Pushing renamed rows renames what pushing the rows gives, in the same order. -/
theorem pushAll_rename (hp : Function.Injective p) (x : Extension) (tuples : List Tuple) :
    (x.rename p).pushAll (tuples.map (List.map p)) = (x.pushAll tuples).rename p := by
  rw [pushAll, pushAll, List.foldl_map]
  exact List.foldl_hom (rename p) fun x t => push_rename hp x t

/-- A renamed tuple is admitted or refused as the original one: its length is the same. -/
theorem insert_rename (hp : Function.Injective p) (x : Extension) (relation : String)
    (t : Tuple) :
    Parallel (RelationError.Alike p) (rename p) (x.insert relation t)
      ((x.rename p).insert relation (t.map p)) := by
  unfold insert
  rw [List.length_map, arity_rename]
  by_cases h : t.length = x.arity
  · rw [if_pos h, if_pos h, push_rename hp]
    exact .ok _
  · rw [if_neg h, if_neg h]
    exact .error rfl

/-- Renamed tuples make the renamed extension, or are refused together with the original ones. -/
theorem ofTuples_rename (hp : Function.Injective p) (arity : Nat) (tuples : List Tuple) :
    Parallel (RelationError.Alike p) (rename p) (ofTuples arity tuples)
      (ofTuples arity (tuples.map (List.map p))) :=
  .foldlM (fun x t _ => insert_rename hp x "<extension>" t) (empty arity)

theorem getElem?_map_beq (hp : Function.Injective p) (t : Tuple) (i : Nat) (a : Atom) :
    ((t.map p)[i]? == some (p a)) = (t[i]? == some a) := by
  rw [Bool.eq_iff_iff, beq_iff_eq, beq_iff_eq, List.getElem?_map]
  exact ⟨fun h => Option.map_injective hp h, fun h => congrArg (Option.map p) h⟩

theorem valuesAt_rename (hp : Function.Injective p) (x : Extension) (position : Nat)
    (value : Atom) :
    (x.rename p).valuesAt position (p value) = (x.valuesAt position value).map (List.map p) := by
  have hselects : (fun t : Tuple => t[position]? == some (p value)) ∘ List.map p =
      fun t => t[position]? == some value :=
    funext fun t => getElem?_map_beq hp t position value
  rw [valuesAt, valuesAt, rows_rename, List.filter_map, hselects]

/-- Renaming keeps equality of extensions in both directions. -/
theorem equal_rename (hp : Function.Injective p) (x y : Extension) :
    (x.rename p).equal (y.rename p) = x.equal y := by
  have hcontains : (y.rename p).contains ∘ List.map p = y.contains :=
    funext fun t => contains_rename hp y t
  rw [equal, equal, arity_rename, arity_rename, size_rename, size_rename, rows_rename,
    List.all_map, hcontains]

/-- Two atoms are distinct just if the renamed ones are, so antisymmetry is kept. -/
theorem isAntisymmetric_rename (hp : Function.Injective p) (x : Extension) :
    (x.rename p).isAntisymmetric = x.isAntisymmetric := by
  rw [isAntisymmetric, isAntisymmetric, arity_rename, rows_rename, List.all_map]
  congr 2
  funext t
  match t with
  | [] | [_] | _ :: _ :: _ :: _ => rfl
  | [a, b] =>
    have hcontains := contains_rename hp x [b, a]
    simp only [List.map_cons, List.map_nil] at hcontains
    simp only [Function.comp, List.map_cons, List.map_nil, hcontains, hp.beq_eq]

end Extension

/-! ## Chains -/

namespace Frontier

/-- The state of a search over other atoms. -/
def rename (p : Atom → Atom) (f : Frontier) : Frontier := ⟨f.visited.map p, f.queue.map p⟩

theorem visit_rename (hp : Function.Injective p) (f : Frontier) (a : Atom) :
    (f.rename p).visit (p a) = (f.visit a).rename p := by
  unfold visit
  have hvisited : (f.rename p).visited.contains (p a) = f.visited.contains a :=
    contains_map hp f.visited a
  rw [hvisited]
  by_cases h : f.visited.contains a = true
  · rw [if_pos h, if_pos h]
  · rw [if_neg h, if_neg h]
    simp [rename]

/-- Visiting renamed atoms in turn renames what visiting the atoms gives. -/
theorem visitAll_rename (hp : Function.Injective p) (f : Frontier) (atoms : List Atom) :
    (f.rename p).visitAll (atoms.map p) = (f.visitAll atoms).rename p := by
  rw [visitAll, visitAll, List.foldl_map]
  exact List.foldl_hom (rename p) fun f a => visit_rename hp f a

end Frontier

namespace Extension

/-- The renamed successors of an atom are the successors of the renamed one, in the same order. -/
theorem successors_rename (hp : Function.Injective p) (x : Extension) (a : Atom) :
    (x.rename p).successors (p a) = (x.successors a).map p := by
  rw [successors, successors, valuesAt_rename hp, List.filterMap_map, List.map_filterMap]
  congr 1
  funext t
  simp

theorem targets_rename (hp : Function.Injective p) (x : Extension) :
    (x.rename p).targets = x.targets.map p := by
  rw [targets, targets, ← eraseDups_map hp, rows_rename, List.filterMap_map, List.map_filterMap]
  congr 2
  funext t
  simp

/-- One round of the search on renamed rows is the renamed round. -/
theorem expand_rename (hp : Function.Injective p) (x : Extension) (f : Frontier) :
    (x.rename p).expand (f.rename p) = (x.expand f).rename p := by
  obtain ⟨visited, queue⟩ := f
  cases queue with
  | nil => rfl
  | cons a queue =>
    have hrest := Frontier.visitAll_rename hp ⟨visited, queue⟩ (x.successors a)
    rw [← successors_rename hp] at hrest
    exact hrest

theorem opening_rename (hp : Function.Injective p) (x : Extension) (a : Atom) :
    (x.rename p).opening (p a) = (x.opening a).rename p := by
  rw [opening, opening, successors_rename hp, ← Frontier.visitAll_rename hp]
  rfl

/-- A search over other atoms makes the same rounds. -/
theorem finds_rename (hp : Function.Injective p) (x : Extension) (goal : Atom) (rounds : Nat)
    (f : Frontier) :
    (x.rename p).finds (p goal) rounds (f.rename p) = x.finds goal rounds f := by
  induction rounds generalizing f with
  | zero => rfl
  | succ rounds ih =>
    obtain ⟨visited, queue⟩ := f
    cases queue with
    | nil => rfl
    | cons a queue =>
      have hexpand := expand_rename hp x ⟨visited, a :: queue⟩
      rw [finds, finds, hexpand, ih]
      simp only [Frontier.rename, List.map_cons, hp.beq_eq]

/-- The same atoms are reached, under other names. -/
theorem reachable_rename (hp : Function.Injective p) (x : Extension) (a b : Atom) :
    (x.rename p).reachable (p a) (p b) = x.reachable a b := by
  rw [reachable, reachable, arity_rename, targets_rename hp, List.length_map, opening_rename hp,
    finds_rename hp]

end Extension

/-! ## Properties -/

/-- No rule looks at more than equality of atoms. -/
theorem Inducer.holds_rename (hp : Function.Injective p) (x : Extension) (a b : Atom)
    (rule : Inducer) : rule.holds (x.rename p) (p a) (p b) = rule.holds x a b := by
  cases rule with
  | reflexive => exact hp.beq_eq
  | symmetric => exact Extension.contains_rename hp x [b, a]
  | transitive => exact Extension.reachable_rename hp x a b

namespace PropertySet

/-- A renamed pair is induced just if the original one is. -/
theorem induces_rename (hp : Function.Injective p) (ps : PropertySet) (a b : Atom)
    (x : Extension) : ps.induces (p a) (p b) (x.rename p) = ps.induces a b x := by
  rw [induces, induces]
  congr 1
  funext rule
  exact Inducer.holds_rename hp x a b rule

theorem brokenGuard?_rename (hp : Function.Injective p) (ps : PropertySet) (a b : Atom)
    (x : Extension) : ps.brokenGuard? (p a) (p b) (x.rename p) = ps.brokenGuard? a b x := by
  have hcontains : (x.rename p).contains [p b, p a] = x.contains [b, a] :=
    Extension.contains_rename hp x [b, a]
  rw [brokenGuard?, brokenGuard?, hcontains, hp.beq_eq]

/-- A renamed pair is refused by the same guard, with the renamed pair in the message. -/
theorem checkInsert_rename (hp : Function.Injective p) (ps : PropertySet) (relation : String)
    (a b : Atom) (x : Extension) :
    Parallel (RelationError.Alike p) id (ps.checkInsert relation a b x)
      (ps.checkInsert relation (p a) (p b) (x.rename p)) := by
  rw [checkInsert, checkInsert, brokenGuard?_rename hp]
  cases ps.brokenGuard? a b x with
  | none => exact .ok ()
  | some property => exact .error rfl

end PropertySet

namespace Schema

theorem checkGuards_rename (hp : Function.Injective p) (schema : Schema) (x : Extension)
    (t : Tuple) :
    Parallel (RelationError.Alike p) id (schema.checkGuards x t)
      (schema.checkGuards (x.rename p) (t.map p)) := by
  match t with
  | [] | [_] | _ :: _ :: _ :: _ => exact .ok ()
  | [a, b] => exact schema.properties.checkInsert_rename hp schema.name a b x

theorem insert_rename (hp : Function.Injective p) (schema : Schema) (x : Extension) (t : Tuple) :
    Parallel (RelationError.Alike p) (Extension.rename p) (schema.insert x t)
      (schema.insert (x.rename p) (t.map p)) :=
  (schema.checkGuards_rename hp x t).bind fun _ => x.insert_rename hp schema.name t

theorem insertAll_rename (hp : Function.Injective p) (schema : Schema) (x : Extension)
    (tuples : List Tuple) :
    Parallel (RelationError.Alike p) (Extension.rename p) (schema.insertAll x tuples)
      (schema.insertAll (x.rename p) (tuples.map (List.map p))) :=
  .foldlM (fun x t _ => schema.insert_rename hp x t) x

end Schema

end RelationAlgebra
