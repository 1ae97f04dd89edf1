import Mathlib.Data.List.Perm.Basic
import RelationAlgebra.Proofs.Guard

/-!
# Inserting several tuples

Tuples are inserted one after another, each beside the rows that are there by then. Whether all of
them are let in does not depend on their order, though: each of them has to be let in beside the old
rows (`Schema.Admits`), and no two of them may clash (`Schema.Clash`), as the two orders of a pair
do in an asymmetric relation (`Schema.insertAll_eq_ok_iff`). In another order they make the same rows
in another order (`Extension.perm_rows_pushAll`).
-/

namespace RelationAlgebra

variable {schema : Schema} {x y : Extension} {t u : Tuple} {tuples tuples' : List Tuple}

/-! ## Rows -/

namespace Extension

theorem arity_pushAll (x : Extension) (tuples : List Tuple) :
    (x.pushAll tuples).arity = x.arity := by
  induction tuples generalizing x with
  | nil => rfl
  | cons t tuples ih => exact (ih (x.push t)).trans (arity_push x t)

/-- Tuples that are pushed in another order make the same rows. -/
theorem perm_rows_pushAll (hx : x.rows.Nodup) (h : tuples.Perm tuples') :
    (x.pushAll tuples).rows.Perm (x.pushAll tuples').rows := by
  have hnodup : ∀ tuples, (x.pushAll tuples).rows.Nodup := by
    intro tuples
    rw [rows_pushAll hx]
    exact nodup_eraseDups _
  refine (List.perm_ext_iff_of_nodup (hnodup tuples) (hnodup tuples')).mpr fun t => ?_
  rw [mem_rows_pushAll, mem_rows_pushAll, h.mem_iff]

/-- The order of the rows does not matter to equality. -/
theorem equal_of_perm (harity : x.arity = y.arity) (h : x.rows.Perm y.rows) :
    x.equal y = true := by
  have hall : x.rows.all y.contains = true := by
    rw [List.all_eq_true]
    exact fun t ht => contains_iff.mpr (h.mem_iff.mp ht)
  simp [equal, harity, size, h.length_eq, hall]

end Extension

/-! ## What is let in -/

namespace Schema

/-- Whether two tuples are one pair in both orders, in an asymmetric relation. A pair of an atom with
itself clashes with itself. -/
def Clash (schema : Schema) (t u : Tuple) : Prop :=
  schema.properties.asymmetric = true ∧ ∃ a c, t = [a, c] ∧ u = [c, a]

theorem Clash.symm (h : schema.Clash t u) : schema.Clash u t := by
  obtain ⟨hasymmetric, a, c, rfl, rfl⟩ := h
  exact ⟨hasymmetric, c, a, rfl, rfl⟩

/-- Whether a tuple is let in beside the rows of `x`. -/
structure Admits (schema : Schema) (x : Extension) (t : Tuple) : Prop where
  length : t.length = x.arity
  irreflexive : schema.properties.irreflexive = true → ∀ a, t ≠ [a, a]
  apart : ∀ u ∈ x.rows, ¬ schema.Clash t u

/-- The guards look at the tuple itself and at what it would clash with. -/
theorem checkGuards_eq_ok_iff :
    schema.checkGuards x t = .ok () ↔
      (schema.properties.irreflexive = true → ∀ a, t ≠ [a, a]) ∧
        ∀ u ∈ x.rows, ¬ schema.Clash t u := by
  unfold checkGuards
  split
  next a c =>
    rw [PropertySet.checkInsert_eq_ok_iff]
    refine and_congr (forall_congr' fun _ => ?_) ?_
    · constructor
      · rintro hne d heq
        obtain ⟨rfl, rfl⟩ : a = d ∧ c = d := by simpa using heq
        exact hne rfl
      · rintro hne rfl
        exact hne a rfl
    · constructor
      · rintro hno u hu ⟨hasymmetric, d, e, heq, rfl⟩
        obtain ⟨rfl, rfl⟩ : a = d ∧ c = e := by simpa using heq
        exact hno hasymmetric hu
      · exact fun hno hasymmetric hca => hno [c, a] hca ⟨hasymmetric, a, c, rfl, rfl⟩
  next hne =>
    refine iff_of_true rfl ⟨fun _ a heq => hne a a heq, ?_⟩
    rintro u - ⟨-, a, c, heq, -⟩
    exact hne a c heq

/-- An insertion succeeds just where the tuple is let in, and it pushes the tuple. -/
theorem insert_eq_ok_iff_admits :
    schema.insert x t = .ok y ↔ schema.Admits x t ∧ y = x.push t := by
  rw [insert_eq_ok_iff, checkGuards_eq_ok_iff]
  constructor
  · rintro ⟨⟨hirreflexive, hapart⟩, hlen, rfl⟩
    exact ⟨⟨hlen, hirreflexive, hapart⟩, rfl⟩
  · rintro ⟨h, rfl⟩
    exact ⟨⟨h.irreflexive, h.apart⟩, h.length, rfl⟩

/-- One more row keeps out what clashes with it, and nothing else. -/
theorem admits_push_iff :
    schema.Admits (x.push t) u ↔ schema.Admits x u ∧ ¬ schema.Clash t u := by
  constructor
  · intro h
    refine ⟨⟨h.length.trans (Extension.arity_push x t), h.irreflexive, fun v hv => ?_⟩, fun hno => ?_⟩
    · exact h.apart v (Extension.mem_rows_push.mpr (Or.inl hv))
    · exact h.apart t (Extension.mem_rows_push.mpr (Or.inr rfl)) hno.symm
  · rintro ⟨h, hno⟩
    refine ⟨h.length.trans (Extension.arity_push x t).symm, h.irreflexive, fun v hv => ?_⟩
    rcases Extension.mem_rows_push.mp hv with hv | rfl
    · exact h.apart v hv
    · exact fun hclash => hno hclash.symm

/-! ## One after another -/

theorem insertAll_cons (schema : Schema) (x : Extension) (t : Tuple) (tuples : List Tuple) :
    schema.insertAll x (t :: tuples) =
      schema.insert x t >>= fun y => schema.insertAll y tuples :=
  List.foldlM_cons

theorem insertAll_singleton (schema : Schema) (x : Extension) (t : Tuple) :
    schema.insertAll x [t] = schema.insert x t := by
  rw [insertAll_cons]
  cases schema.insert x t <;> rfl

/-- A batch is inserted part by part. -/
theorem insertAll_append (schema : Schema) (x : Extension) (first second : List Tuple) :
    schema.insertAll x (first ++ second) =
      schema.insertAll x first >>= fun y => schema.insertAll y second :=
  List.foldlM_append

theorem insertAll_append_eq_ok_iff {z : Extension} {first second : List Tuple} :
    schema.insertAll x (first ++ second) = .ok z ↔
      ∃ y, schema.insertAll x first = .ok y ∧ schema.insertAll y second = .ok z := by
  rw [insertAll_append, bind_eq_ok_iff]

/-- Tuples are let in one after another if each is let in beside the old rows and no two clash. -/
theorem insertAll_eq_ok_iff :
    schema.insertAll x tuples = .ok y ↔
      (∀ t ∈ tuples, schema.Admits x t) ∧ tuples.Pairwise (fun t u => ¬ schema.Clash t u) ∧
        y = x.pushAll tuples := by
  induction tuples generalizing x with
  | nil =>
    have hnil : schema.insertAll x [] = .ok x := rfl
    simp [hnil, Extension.pushAll, eq_comm]
  | cons t tuples ih =>
    simp only [insertAll_cons, bind_eq_ok_iff, insert_eq_ok_iff_admits, ih, List.pairwise_cons,
      List.forall_mem_cons]
    constructor
    · rintro ⟨z, ⟨ht, rfl⟩, hadmits, hpairwise, hy⟩
      -- what is let in beside the first tuple does not clash with it
      have hsplit := fun u hu => admits_push_iff.mp (hadmits u hu)
      exact ⟨⟨ht, fun u hu => (hsplit u hu).1⟩, ⟨fun u hu => (hsplit u hu).2, hpairwise⟩, hy⟩
    · rintro ⟨⟨ht, hadmits⟩, ⟨hclash, hpairwise⟩, hy⟩
      exact ⟨x.push t, ⟨ht, rfl⟩,
        fun u hu => admits_push_iff.mpr ⟨hadmits u hu, hclash u hu⟩, hpairwise, hy⟩

theorem eq_pushAll_of_insertAll (h : schema.insertAll x tuples = .ok y) :
    y = x.pushAll tuples :=
  (insertAll_eq_ok_iff.mp h).2.2

end Schema

end RelationAlgebra
