import RelationAlgebra.Error

/-!
# Extensions

An extension is the list of rows that a relation has at one moment, in the order in which they
arrived and without repeats. Everything else about it is read off `contains`; `push` is the one way
in which it grows.
-/

namespace RelationAlgebra

/-- The rows of a relation. -/
structure Extension where
  /-- The length of the rows. -/
  arity : Nat
  /-- The rows, oldest first. -/
  rows : List Tuple
deriving Repr

namespace Extension

/-- The extension without rows. -/
def empty (arity : Nat) : Extension := ⟨arity, []⟩

/-- The number of rows. -/
def size (x : Extension) : Nat := x.rows.length

/-- Whether there are no rows. -/
def isEmpty (x : Extension) : Bool := x.rows.isEmpty

/-- Whether a tuple is a row. -/
def contains (x : Extension) (t : Tuple) : Bool := x.rows.contains t

/-- The extension with `t` as its last row, or unchanged if `t` is a row already. -/
def push (x : Extension) (t : Tuple) : Extension :=
  if x.contains t then x else { x with rows := x.rows ++ [t] }

/-- The extension with all listed tuples pushed in turn. -/
def pushAll (x : Extension) (tuples : List Tuple) : Extension := tuples.foldl push x

/-- As `push`, for a tuple of the right length only. -/
def insert (x : Extension) (relation : String) (t : Tuple) : Except RelationError Extension :=
  if t.length = x.arity then .ok (x.push t)
  else .error (.arityMismatch relation x.arity t.length)

/-- The extension of the listed tuples, all of which must have the given length. -/
def ofTuples (arity : Nat) (tuples : List Tuple) : Except RelationError Extension :=
  tuples.foldlM (fun x t => x.insert "<extension>" t) (empty arity)

/-- The rows that have `value` in the slot `position`. -/
def valuesAt (x : Extension) (position : Nat) (value : Atom) : List Tuple :=
  x.rows.filter fun t => t[position]? == some value

/-- Every occurrence of an atom, row by row. -/
def atoms (x : Extension) : List Atom := x.rows.flatten

/-- Whether two extensions have the same arity and the same rows in any order. Since rows do not
repeat, equal sizes and one inclusion suffice. -/
def equal (x y : Extension) : Bool :=
  x.arity == y.arity && x.size == y.size && x.rows.all y.contains

/-- Whether the extension is binary and holds no two distinct atoms in both orders. -/
def isAntisymmetric (x : Extension) : Bool :=
  x.arity == 2 && x.rows.all fun t =>
    match t with
    | [a, b] => a == b || !x.contains [b, a]
    | _ => false

theorem contains_iff {x : Extension} {t : Tuple} : x.contains t = true ↔ t ∈ x.rows := by
  simp [contains]

@[simp]
theorem arity_push (x : Extension) (t : Tuple) : (x.push t).arity = x.arity := by
  unfold push; split <;> rfl

theorem mem_rows_push {x : Extension} {s t : Tuple} :
    s ∈ (x.push t).rows ↔ s ∈ x.rows ∨ s = t := by
  unfold push
  split
  next h =>
    rw [contains_iff] at h
    constructor
    · exact Or.inl
    · rintro (hs | rfl)
      · exact hs
      · exact h
  next => simp

theorem nodup_rows_push {x : Extension} {t : Tuple} (h : x.rows.Nodup) : (x.push t).rows.Nodup := by
  unfold push
  split
  next => exact h
  next hc =>
    rw [contains_iff] at hc
    rw [List.nodup_append]
    exact ⟨h, by simp, by rintro a ha b hb rfl; simp at hb; exact hc (hb ▸ ha)⟩

end Extension

end RelationAlgebra
