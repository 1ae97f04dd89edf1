import Mathlib.Data.Set.Basic
import RelationAlgebra.Proofs.Composition

/-!
# Expressions

Union, intersection, composition and converse of unbound relations, nested at will. Building an
expression applies the combinators from the inside, and every derived relation gets a number of its
own. The value of an expression is a set of tuples, put together from the rows of the relations in
it as in the calculus of relations.

Building an expression over tabular relations that fits together by arity never fails, and what
comes of it enumerates, and equally accepts, just the value (`Expression.Typed.exhibits`), whatever
numbers the derived relations get. So an equation between values is a law of the combinators
(`Expression.Typed.agree`). Complement is left out: it depends on a registry, and asks its operand
for more than rows.
-/

namespace RelationAlgebra

/-- Combinators applied to unbound relations. -/
inductive Expression where
  | relation (r : Relation)
  | union (operands : List Expression)
  | intersection (operands : List Expression)
  | composition (first second : Expression)
  | converse (operand : Expression)

instance : Coe Relation Expression := ⟨.relation⟩

instance : Coe Base Expression := ⟨fun b => .relation (.base b)⟩

namespace Expression

/-- Applies a combinator to unbound relations, where `k` relations were derived before. -/
def apply (number : Nat → Nat) (registry : String) (combinator : Combinator)
    (operands : List Relation) (k : Nat) : Except RelationError (Relation × Nat) := do
  let r ← Relation.derive (number k) combinator (operands.map Relation.identityView) registry
  return (r, k + 1)

mutual

/-- Builds an expression from the inside, where `k` relations were derived before; the next one gets
the number `number k`. Gives the relation and how many are derived after it. -/
def build (number : Nat → Nat) (registry : String) :
    Expression → Nat → Except RelationError (Relation × Nat)
  | relation r, k => .ok (r, k)
  | union operands, k => do
    let (rs, k) ← buildAll number registry operands k
    apply number registry .union rs k
  | intersection operands, k => do
    let (rs, k) ← buildAll number registry operands k
    apply number registry .intersection rs k
  | composition first second, k => do
    let (q, k) ← build number registry first k
    let (r, k) ← build number registry second k
    apply number registry .composition [q, r] k
  | converse operand, k => do
    let (r, k) ← build number registry operand k
    apply number registry .converse [r] k

/-- Builds several expressions in turn. -/
def buildAll (number : Nat → Nat) (registry : String) :
    List Expression → Nat → Except RelationError (List Relation × Nat)
  | [], k => .ok ([], k)
  | e :: es, k => do
    let (r, k) ← build number registry e k
    let (rs, k) ← buildAll number registry es k
    return (r :: rs, k)

end

/-- The relation that comes of building an expression. -/
def derive (e : Expression) (number : Nat → Nat) (registry : String) :
    Except RelationError Relation := (e.build number registry 0).map Prod.fst

/-- Whether an expression stands for a derived relation. -/
def isDerived : Expression → Bool
  | relation r => r.isDerived
  | _ => true

mutual

/-- The tuples that an expression stands for over a store, each combinator taken as an operation on
sets of rows. -/
def value (s : Store) : Expression → Set Tuple
  | relation r => {t | t ∈ (s.rows r).rows}
  | union operands => someValue s operands
  | intersection operands => everyValue s operands
  | composition first second =>
    {t | ∃ a b c, t = [a, c] ∧ [a, b] ∈ value s first ∧ [b, c] ∈ value s second}
  | converse operand => {t | ∃ a b, t = [a, b] ∧ [b, a] ∈ value s operand}

/-- The tuples that some of several expressions stand for. -/
def someValue (s : Store) : List Expression → Set Tuple
  | [] => ∅
  | e :: es => value s e ∪ someValue s es

/-- The tuples that each of several expressions stands for. -/
def everyValue (s : Store) : List Expression → Set Tuple
  | [] => Set.univ
  | e :: es => value s e ∩ everyValue s es

end

/-- Whether an expression fits together to one of arity `n`, over relations that list their rows
only: operands of union and intersection have the same arity, the others are binary. -/
inductive Typed (s : Store) : Nat → Expression → Prop where
  | relation {n : Nat} {r : Relation} (h : s.Tabular n r) : Typed s n (.relation r)
  | union {n : Nat} {es : List Expression} (hne : es ≠ []) (h : ∀ e ∈ es, Typed s n e) :
      Typed s n (.union es)
  | intersection {n : Nat} {es : List Expression} (hne : es ≠ []) (h : ∀ e ∈ es, Typed s n e) :
      Typed s n (.intersection es)
  | composition {e f : Expression} (he : Typed s 2 e) (hf : Typed s 2 f) :
      Typed s 2 (.composition e f)
  | converse {e : Expression} (h : Typed s 2 e) : Typed s 2 (.converse e)

end Expression

namespace Store

variable {s : Store}

/-- Whether two relations accept the same tuples and enumerate the same tuples. -/
def Same (s : Store) (q r : Relation) : Prop :=
  ∀ t, (s.accepts q t = true ↔ s.accepts r t = true) ∧ (t ∈ (s.rows q).rows ↔ t ∈ (s.rows r).rows)

/-- Whether building either of two expressions succeeds and the two come to the same. -/
def Agree (s : Store) (e f : Expression) : Prop :=
  ∀ number number' registry, ∃ q r, e.derive number registry = .ok q ∧
    f.derive number' registry = .ok r ∧ s.Same q r

/-- Whether building an expression succeeds and gives a relation that accepts, and equally
enumerates, the tuples of a set and no others. -/
def Exhibits (s : Store) (e : Expression) (T : Set Tuple) : Prop :=
  ∀ number registry, ∃ r, e.derive number registry = .ok r ∧
    ∀ t, (s.accepts r t = true ↔ t ∈ T) ∧ (t ∈ (s.rows r).rows ↔ t ∈ T)

/-- Two expressions that exhibit the same set agree. -/
theorem Exhibits.agree {e f : Expression} {T : Set Tuple} (he : s.Exhibits e T)
    (hf : s.Exhibits f T) : s.Agree e f := by
  intro number number' registry
  obtain ⟨q, hq, hqT⟩ := he number registry
  obtain ⟨r, hr, hrT⟩ := hf number' registry
  exact ⟨q, r, hq, hr, fun t =>
    ⟨(hqT t).1.trans (hrT t).1.symm, (hqT t).2.trans (hrT t).2.symm⟩⟩

/-- Whether a relation is tabular and has the given tuples as its rows. -/
structure Holding (s : Store) (n : Nat) (T : Set Tuple) (r : Relation) : Prop where
  tabular : s.Tabular n r
  mem_rows : ∀ t, t ∈ (s.rows r).rows ↔ t ∈ T

/-- The tuples that a relation holds have its arity. -/
theorem Holding.length {n : Nat} {T : Set Tuple} {r : Relation} (h : s.Holding n T r) {t : Tuple}
    (ht : t ∈ T) : t.length = n :=
  h.tabular.length t ((h.mem_rows t).mpr ht)

end Store

namespace Expression

variable {s : Store} {n : Nat} {e f : Expression} {es : List Expression} {number : Nat → Nat}
  {registry : String} {q r : Relation} {rs : List Relation} {k : Nat} {t : Tuple} {a b c : Atom}

/-- A union of two expressions has the type of both. -/
theorem Typed.union_pair (he : e.Typed s n) (hf : f.Typed s n) :
    (Expression.union [e, f]).Typed s n :=
  .union (List.cons_ne_nil e [f]) (by simp [he, hf])

theorem Typed.intersection_pair (he : e.Typed s n) (hf : f.Typed s n) :
    (Expression.intersection [e, f]).Typed s n :=
  .intersection (List.cons_ne_nil e [f]) (by simp [he, hf])

/-! ## Values -/

@[simp]
theorem someValue_nil : someValue s [] = ∅ := rfl

@[simp]
theorem someValue_cons : someValue s (e :: es) = e.value s ∪ someValue s es := rfl

@[simp]
theorem everyValue_nil : everyValue s [] = Set.univ := rfl

@[simp]
theorem everyValue_cons : everyValue s (e :: es) = e.value s ∩ everyValue s es := rfl

theorem value_union : (union es).value s = someValue s es := rfl

theorem value_intersection : (intersection es).value s = everyValue s es := rfl

/-- The value of a relation is the set of its rows, not of what it accepts. -/
@[simp]
theorem mem_value_relation : t ∈ (relation r).value s ↔ t ∈ (s.rows r).rows := Iff.rfl

theorem value_base {b : Base} :
    (relation (.base b)).value s = {t | t ∈ (s.extension b).rows} :=
  Set.ext fun _ => mem_value_relation

/-- A tuple is in a union if it is in the value of some operand. -/
@[simp]
theorem mem_value_union : t ∈ (union es).value s ↔ ∃ e ∈ es, t ∈ e.value s := by
  rw [value_union]
  induction es with
  | nil => simp
  | cons e es ih => simp [ih]

@[simp]
theorem mem_value_intersection : t ∈ (intersection es).value s ↔ ∀ e ∈ es, t ∈ e.value s := by
  rw [value_intersection]
  induction es with
  | nil => simp
  | cons e es ih => simp [ih]

theorem value_union_pair : (union [e, f]).value s = e.value s ∪ f.value s := by
  rw [value_union, someValue_cons, someValue_cons, someValue_nil, Set.union_empty]

theorem value_intersection_pair : (intersection [e, f]).value s = e.value s ∩ f.value s := by
  rw [value_intersection, everyValue_cons, everyValue_cons, everyValue_nil, Set.inter_univ]

theorem mem_value_union_pair : t ∈ (union [e, f]).value s ↔ t ∈ e.value s ∨ t ∈ f.value s := by
  rw [value_union_pair, Set.mem_union]

/-- A pair is in a composition if some middle atom links the two operands. -/
@[simp]
theorem mem_value_composition :
    [a, c] ∈ (composition e f).value s ↔ ∃ b, [a, b] ∈ e.value s ∧ [b, c] ∈ f.value s := by
  constructor
  · rintro ⟨a, b, c, ⟨⟩, h⟩
    exact ⟨b, h⟩
  · rintro ⟨b, h⟩
    exact ⟨a, b, c, rfl, h⟩

/-- A pair is in a converse if the swapped pair is in the operand. -/
@[simp]
theorem mem_value_converse : [a, b] ∈ (converse e).value s ↔ [b, a] ∈ e.value s := by
  constructor
  · rintro ⟨a, b, ⟨⟩, h⟩
    exact h
  · exact fun h => ⟨a, b, rfl, h⟩

/-- A composition has pairs as its value only. -/
theorem length_of_mem_value_composition (h : t ∈ (composition e f).value s) : t.length = 2 := by
  obtain ⟨a, b, c, rfl, -⟩ := h
  rfl

theorem length_of_mem_value_converse (h : t ∈ (converse e).value s) : t.length = 2 := by
  obtain ⟨a, b, rfl, -⟩ := h
  rfl

/-! ## Steps of building -/

/-- Applying union to relations makes one of their identity views, under the next number. -/
theorem apply_union (hne : rs ≠ []) :
    apply number registry .union rs k =
      .ok (.union (number k) (rs.map Relation.identityView), k + 1) := by
  rw [apply, Relation.derive_union (by simpa using hne)]
  rfl

theorem apply_intersection (hne : rs ≠ []) :
    apply number registry .intersection rs k =
      .ok (.intersection (number k) (rs.map Relation.identityView), k + 1) := by
  rw [apply, Relation.derive_intersection (by simpa using hne)]
  rfl

/-- Composition takes two binary relations as they are. -/
theorem apply_composition (hq : q.arity = 2) (hr : r.arity = 2) :
    apply number registry .composition [q, r] k = .ok (.composition (number k) q r, k + 1) := by
  rw [apply, List.map_cons, List.map_cons, List.map_nil, Relation.derive_composition hq hr]
  rfl

theorem apply_converse (hr : r.arity = 2) :
    apply number registry .converse [r] k = .ok (.converse (number k) r, k + 1) := by
  rw [apply, List.map_cons, List.map_nil, Relation.derive_converse hr]
  rfl

/-- Operands are built from left to right, and the union after them. -/
theorem build_union : (union es).build number registry k =
    (buildAll number registry es k >>= fun p => apply number registry .union p.1 p.2) := rfl

theorem build_intersection : (intersection es).build number registry k =
    (buildAll number registry es k >>= fun p => apply number registry .intersection p.1 p.2) := rfl

/-- The number that one operand leaves is the first that the next one may take. -/
theorem buildAll_cons : buildAll number registry (e :: es) k =
    (e.build number registry k >>= fun p =>
      buildAll number registry es p.2 >>= fun p' => pure (p.1 :: p'.1, p'.2)) := rfl

/-- A composition takes the number after those of its operands. -/
theorem build_composition {k₁ k₂ : Nat} (he : e.build number registry k = .ok (q, k₁))
    (hf : f.build number registry k₁ = .ok (r, k₂)) (hq : q.arity = 2) (hr : r.arity = 2) :
    (composition e f).build number registry k =
      .ok (.composition (number k₂) q r, k₂ + 1) := by
  show (e.build number registry k >>= fun p => f.build number registry p.2 >>= fun p' =>
    apply number registry .composition [p.1, p'.1] p'.2) = _
  simp only [he, hf, bind, Except.bind]
  exact apply_composition hq hr

theorem build_converse {k' : Nat} (he : e.build number registry k = .ok (r, k'))
    (hr : r.arity = 2) :
    (converse e).build number registry k = .ok (.converse (number k') r, k' + 1) := by
  show (e.build number registry k >>= fun p => apply number registry .converse [p.1] p.2) = _
  rw [he]
  exact apply_converse hr

/-- What is built from the first number on is what the expression derives. -/
theorem derive_of_build {k : Nat} (h : e.build number registry 0 = .ok (r, k)) :
    e.derive number registry = .ok r := by
  rw [derive, h]
  rfl

/-! ## What comes of building -/

/-- Whether building an expression succeeds and gives a relation that holds its value. -/
def Builds (s : Store) (n : Nat) (e : Expression) : Prop :=
  ∀ number registry k, ∃ r k', e.build number registry k = .ok (r, k') ∧
    s.Holding n (e.value s) r ∧ r.isDerived = e.isDerived

/-- Several expressions are built into tables, some of which hold a tuple just if some of the values
do, and all of which hold it just if all of the values do. -/
theorem exists_buildAll (h : ∀ e ∈ es, e.Builds s n) (number : Nat → Nat) (registry : String)
    (k : Nat) :
    ∃ rs k', buildAll number registry es k = .ok (rs, k') ∧ (es ≠ [] → rs ≠ []) ∧
      (∀ r ∈ rs, s.Tabular n r) ∧
      ∀ t, ((∃ r ∈ rs, t ∈ (s.rows r).rows) ↔ ∃ e ∈ es, t ∈ e.value s) ∧
        ((∀ r ∈ rs, t ∈ (s.rows r).rows) ↔ ∀ e ∈ es, t ∈ e.value s) := by
  induction es generalizing k with
  | nil => exact ⟨[], k, rfl, fun h => absurd rfl h, by simp, fun t => by simp⟩
  | cons e es ih =>
    rw [List.forall_mem_cons] at h
    obtain ⟨r, k₁, hr, hholding, -⟩ := h.1 number registry k
    obtain ⟨rs, k₂, hrs, -, htabular, hvalue⟩ := ih h.2 k₁
    refine ⟨r :: rs, k₂, ?_, fun _ => List.cons_ne_nil r rs, ?_, fun t => ?_⟩
    · rw [buildAll_cons, hr]
      simp only [bind, Except.bind, hrs]
      rfl
    · rw [List.forall_mem_cons]
      exact ⟨hholding.tabular, htabular⟩
    · simp only [List.exists_mem_cons_iff, List.forall_mem_cons, hholding.mem_rows, hvalue t,
        and_self]

/-- The union of what is built is built, and is the table of the union of the values. -/
theorem Builds.union (hne : es ≠ []) (h : ∀ e ∈ es, e.Builds s n) :
    (Expression.union es).Builds s n := by
  intro number registry k
  obtain ⟨rs, k', hrs, hne', htabular, hvalue⟩ := exists_buildAll h number registry k
  refine ⟨.union (number k') (rs.map Relation.identityView), k' + 1, ?_,
    ⟨Store.Tabular.union (hne' hne) htabular, fun t => ?_⟩, rfl⟩
  · rw [build_union, hrs]
    exact apply_union (hne' hne)
  · rw [Store.mem_rows_union_unbound (hne' hne) htabular, mem_value_union, (hvalue t).1]

/-- The intersection of what is built is built, and is the table of the intersection of the
values. -/
theorem Builds.intersection (hne : es ≠ []) (h : ∀ e ∈ es, e.Builds s n) :
    (Expression.intersection es).Builds s n := by
  intro number registry k
  obtain ⟨rs, k', hrs, hne', htabular, hvalue⟩ := exists_buildAll h number registry k
  refine ⟨.intersection (number k') (rs.map Relation.identityView), k' + 1, ?_,
    ⟨Store.Tabular.intersection (hne' hne) htabular, fun t => ?_⟩, rfl⟩
  · rw [build_intersection, hrs]
    exact apply_intersection (hne' hne)
  · rw [Store.mem_rows_intersection_unbound (hne' hne) htabular, mem_value_intersection,
      (hvalue t).2]

/-- The composition of what is built is built, and is the table of the relational product. -/
theorem Builds.composition (he : e.Builds s 2) (hf : f.Builds s 2) :
    (Expression.composition e f).Builds s 2 := by
  intro number registry k
  obtain ⟨q, k₁, hbuild, hq, -⟩ := he number registry k
  obtain ⟨r, k₂, hbuild', hr, -⟩ := hf number registry k₁
  have htabular : s.Tabular 2 (.composition (number k₂) q r) := hq.tabular.composition hr.tabular
  refine ⟨.composition (number k₂) q r, k₂ + 1,
    build_composition hbuild hbuild' hq.tabular.arity hr.tabular.arity, ⟨htabular, ?_⟩, rfl⟩
  refine Tuple.iff_of_pairs htabular.length (fun _ => length_of_mem_value_composition) ?_
  intro a c
  rw [Store.mem_rows_composition hq.tabular.length hr.tabular.length, mem_value_composition]
  simp only [hq.mem_rows, hr.mem_rows]

/-- The converse of what is built is built, and is the table of the swapped pairs. -/
theorem Builds.converse (he : e.Builds s 2) : (Expression.converse e).Builds s 2 := by
  intro number registry k
  obtain ⟨r, k', hbuild, hr, -⟩ := he number registry k
  have htabular : s.Tabular 2 (.converse (number k') r) := hr.tabular.converse
  refine ⟨.converse (number k') r, k' + 1, build_converse hbuild hr.tabular.arity,
    ⟨htabular, ?_⟩, rfl⟩
  refine Tuple.iff_of_pairs htabular.length (fun _ => length_of_mem_value_converse) ?_
  intro a b
  rw [Store.mem_rows_converse hr.tabular.length, mem_value_converse, hr.mem_rows]

/-- Induction on the typing: each combinator is met by its case above. -/
theorem Typed.builds (h : e.Typed s n) : e.Builds s n := by
  induction h with
  | relation h => exact fun number registry k => ⟨_, k, rfl, ⟨h, fun t => Iff.rfl⟩, rfl⟩
  | union hne _ ih => exact .union hne ih
  | intersection hne _ ih => exact .intersection hne ih
  | composition _ _ ihe ihf => exact .composition ihe ihf
  | converse _ ih => exact .converse ih

/-- A combinator expression over tabular relations exhibits its value. -/
theorem Typed.exhibits (h : e.Typed s n) (hd : e.isDerived = true) : s.Exhibits e (e.value s) := by
  intro number registry
  obtain ⟨r, k, hbuild, hr, hderived⟩ := h.builds number registry 0
  refine ⟨r, derive_of_build hbuild, fun t => ⟨?_, hr.mem_rows t⟩⟩
  rw [hr.tabular.accepts_iff (hderived.trans hd), hr.mem_rows]

/-- Derived expressions agree if their values do. -/
theorem Typed.agree (he : e.Typed s n) (hf : f.Typed s n) (hde : e.isDerived = true)
    (hdf : f.isDerived = true) (h : e.value s = f.value s) : s.Agree e f :=
  (he.exhibits hde).agree (h ▸ hf.exhibits hdf)

theorem Typed.length_of_mem_value (h : e.Typed s n) (ht : t ∈ e.value s) : t.length = n := by
  obtain ⟨r, k, -, hr, -⟩ := h.builds id "" 0
  exact hr.length ht

/-- For binary expressions it is enough to compare pairs. -/
theorem Typed.agree_of_pairs (he : e.Typed s 2) (hf : f.Typed s 2) (hde : e.isDerived = true)
    (hdf : f.isDerived = true) (h : ∀ a b, [a, b] ∈ e.value s ↔ [a, b] ∈ f.value s) :
    s.Agree e f :=
  he.agree hf hde hdf <| Set.ext <|
    Tuple.iff_of_pairs (fun _ => he.length_of_mem_value) (fun _ => hf.length_of_mem_value) h

end Expression

end RelationAlgebra
