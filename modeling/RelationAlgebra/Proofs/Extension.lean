import RelationAlgebra.Extension
import RelationAlgebra.Proofs.Distinct

/-!
# Rows of growing extensions

An extension that is built up by a loop has the rows that the rounds of the loop contribute
(`mem_rows_foldl`); tuples that are pushed in turn stand in the order of their first occurrence
(`rows_pushAll`). A valid extension has no repeated row and rows of its arity only; pushing a tuple
of that length, and inserting any tuple, keep it valid.
-/

namespace RelationAlgebra

namespace Extension

/-- The rows after a loop, each round of which keeps the rows and may contribute `t`. -/
theorem mem_rows_foldl {ι : Type} {f : Extension → ι → Extension} {P : ι → Prop} {t : Tuple}
    {is : List ι} (hf : ∀ i ∈ is, ∀ x, t ∈ (f x i).rows ↔ t ∈ x.rows ∨ P i) (x : Extension) :
    t ∈ (is.foldl f x).rows ↔ t ∈ x.rows ∨ ∃ i ∈ is, P i := by
  induction is generalizing x with
  | nil => simp
  | cons i is ih =>
    rw [List.forall_mem_cons] at hf
    rw [List.foldl_cons, ih hf.2, hf.1, or_assoc]
    simp

theorem mem_rows_pushAll {x : Extension} {tuples : List Tuple} {t : Tuple} :
    t ∈ (x.pushAll tuples).rows ↔ t ∈ x.rows ∨ t ∈ tuples := by
  rw [pushAll, mem_rows_foldl (P := fun s => t = s) fun _ _ _ => mem_rows_push]
  simp

/-- Tuples that are pushed in turn come behind the rows, each where it is first. -/
theorem rows_pushAll {x : Extension} (hx : x.rows.Nodup) (tuples : List Tuple) :
    (x.pushAll tuples).rows = (x.rows ++ tuples).eraseDups := by
  induction tuples using List.reverseRecOn with
  | nil => rw [List.append_nil, eraseDups_eq_self hx, pushAll, List.foldl_nil]
  | append_singleton tuples t ih =>
    have hconcat : x.pushAll (tuples ++ [t]) = (x.pushAll tuples).push t := by simp [pushAll]
    have hcontains : (x.pushAll tuples).contains t = true ↔ t ∈ x.rows ++ tuples := by
      rw [contains_iff, ih, List.mem_eraseDups]
    rw [hconcat, ← List.append_assoc, eraseDups_concat, ← ih, push]
    by_cases h : t ∈ x.rows ++ tuples
    · rw [if_pos h, if_pos (hcontains.mpr h)]
    · rw [if_neg h, if_neg (mt hcontains.mp h)]

/-- From nothing, the rows are the distinct tuples in the order in which they were first pushed. -/
theorem rows_pushAll_empty (arity : Nat) (tuples : List Tuple) :
    ((empty arity).pushAll tuples).rows = tuples.eraseDups :=
  rows_pushAll List.nodup_nil tuples

/-- A loop each round of which pushes at most one tuple. -/
theorem foldl_eq_pushAll {ι : Type} {f : Extension → ι → Extension} {g : ι → Option Tuple}
    (hf : ∀ x i, f x i = x.pushAll (g i).toList) (is : List ι) (x : Extension) :
    is.foldl f x = x.pushAll (is.filterMap g) := by
  induction is generalizing x with
  | nil => rfl
  | cons i is ih =>
    have hcons : (i :: is).filterMap g = (g i).toList ++ is.filterMap g := by
      rw [List.filterMap_eq_flatMap_toList, List.flatMap_cons, ← List.filterMap_eq_flatMap_toList]
    rw [List.foldl_cons, ih, hf, hcons, pushAll, pushAll, pushAll, List.foldl_append]

/-- Rows of the right length, none of them twice. -/
structure Valid (x : Extension) : Prop where
  length : ∀ t ∈ x.rows, t.length = x.arity
  nodup : x.rows.Nodup

theorem Valid.length_two {x : Extension} (hx : x.Valid) (harity : x.arity = 2) :
    ∀ t ∈ x.rows, t.length = 2 :=
  fun t ht => (hx.length t ht).trans harity

theorem valid_empty (arity : Nat) : (empty arity).Valid := ⟨by simp [empty], by simp [empty]⟩

/-- To push a tuple of the right length keeps an extension valid. -/
theorem Valid.push {x : Extension} {t : Tuple} (hx : x.Valid) (ht : t.length = x.arity) :
    (x.push t).Valid := by
  refine ⟨fun s hs => ?_, nodup_rows_push hx.nodup⟩
  rw [arity_push]
  rcases mem_rows_push.mp hs with hs | rfl
  · exact hx.length s hs
  · exact ht

theorem push_of_mem {x : Extension} {t : Tuple} (h : t ∈ x.rows) : x.push t = x :=
  if_pos (contains_iff.mpr h)

/-- The length is the one thing that an extension checks. -/
theorem insert_eq_ok_iff {x y : Extension} {relation : String} {t : Tuple} :
    x.insert relation t = .ok y ↔ t.length = x.arity ∧ y = x.push t := by
  unfold insert
  by_cases h : t.length = x.arity <;> simp [h, eq_comm]

end Extension

end RelationAlgebra
