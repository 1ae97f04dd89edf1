import RelationAlgebra.Proofs.Agreement

/-!
# Rows of one length

Rows come into an extension through `push` alone, and a combinator pushes projections on its output
columns. So whatever the operands of a relation say, its rows have the length of its output and none
of them comes twice (`Store.ofArity_rows`). The same holds of what a complement is taken in
(`Store.ofArity_ambient`).
-/

namespace RelationAlgebra

namespace Extension

variable {ι : Type} {n : Nat} {x : Extension} {t : Tuple}

/-- Whether an extension has rows of a given length, none of them twice. -/
structure OfArity (n : Nat) (x : Extension) : Prop where
  arity : x.arity = n
  valid : x.Valid

theorem ofArity_empty (n : Nat) : OfArity n (.empty n) := ⟨rfl, valid_empty n⟩

theorem OfArity.push (hx : x.OfArity n) (ht : t.length = n) : (x.push t).OfArity n :=
  ⟨(arity_push x t).trans hx.arity, hx.valid.push (ht.trans hx.arity.symm)⟩

/-- Rounds that each keep the lengths of the rows keep them throughout. -/
theorem OfArity.foldl {f : Extension → ι → Extension} {is : List ι} (hx : x.OfArity n)
    (hf : ∀ i ∈ is, ∀ x, OfArity n x → OfArity n (f x i)) : (is.foldl f x).OfArity n := by
  induction is generalizing x with
  | nil => exact hx
  | cons i is ih =>
    rw [List.forall_mem_cons] at hf
    exact ih (hf.1 x hx) hf.2

theorem OfArity.pushAll {tuples : List Tuple} (hx : x.OfArity n)
    (h : ∀ t ∈ tuples, t.length = n) : (x.pushAll tuples).OfArity n :=
  hx.foldl fun t ht _ hx => hx.push (h t ht)

theorem OfArity.length (hx : x.OfArity n) (ht : t ∈ x.rows) : t.length = n :=
  (hx.valid.length t ht).trans hx.arity

end Extension

/-! ## Combinators -/

theorem Assignment.length_of_project? {α : Assignment} {output : List Var} {t : Tuple}
    (h : α.project? output = some t) : t.length = output.length := by
  rw [eq_map_of_project? α.within_valuation h, List.length_map]

namespace Reading

variable {output : List Var} {operand : Bound Reading} {x : Extension}

theorem ofArity_emit (hx : x.OfArity output.length) (α : Assignment) :
    (emit output x α).OfArity output.length := by
  unfold emit
  cases h : α.project? output with
  | none => exact hx
  | some t => exact hx.push (Assignment.length_of_project? h)

/-- A join emits rows with an atom for each of its columns. -/
theorem ofArity_join (output : List Var) (operands : List (Bound Reading)) :
    (join output operands).extension.OfArity output.length := by
  rw [extension_join]
  exact (Extension.ofArity_empty _).foldl fun α _ _ hx => ofArity_emit hx α

theorem ofArity_emitOperand (hx : x.OfArity output.length) (domain : List Atom)
    (operand : Bound Reading) : (emitOperand output domain x operand).OfArity output.length := by
  rw [emitOperand_eq]
  exact hx.foldl fun _ _ _ hx => hx.foldl fun α _ _ hx => ofArity_emit hx α

/-- A union emits rows with an atom for each of its columns, also for those that an operand leaves
open. -/
theorem ofArity_union (output : List Var) (operands : List (Bound Reading)) :
    (union output operands).extension.OfArity output.length :=
  (Extension.ofArity_empty _).foldl fun operand _ _ hx => ofArity_emitOperand hx _ operand

/-- One round of a complement emits at most one row, with an atom for each column. -/
theorem ofArity_round (hx : x.OfArity output.length) (operand : Bound Reading) (row : Tuple) :
    (round output operand x row).OfArity output.length := by
  unfold round
  cases Assignment.unify [] operand.slots row with
  | none => exact hx
  | some α =>
    dsimp only
    split
    · exact ofArity_emit hx α
    · exact hx

/-- A complement emits rows with an atom for each of its columns. -/
theorem ofArity_complement (output : List Var) (ambient : Extension) (operand : Bound Reading) :
    (complement output ambient operand).extension.OfArity output.length := by
  rw [extension_complement]
  exact (Extension.ofArity_empty _).foldl fun row _ _ hx => ofArity_round hx operand row

end Reading

/-! ## Relations -/

namespace Store

variable {s : Store} {b : Base} {r : Relation}

/-- The rows of a stored relation have its arity. -/
theorem Valid.ofArity_extension (hs : s.Valid) (hb : s.Holds b) :
    (s.extension b).OfArity b.arity :=
  ⟨hb.arity_extension, hs.valid_extension b⟩

/-- The rows of a relation have its arity, and none of them comes twice. -/
theorem ofArity_rows (hs : s.Valid) (hr : s.Built r) : (s.rows r).OfArity r.arity := by
  rw [rows]
  cases r with
  | base b => exact hs.ofArity_extension hr.holds
  | union id views =>
    rw [read_union]
    exact Reading.ofArity_union _ _
  | intersection id views =>
    rw [read_intersection]
    exact Reading.ofArity_join _ _
  | complement id v registry =>
    rw [read_complement]
    exact Reading.ofArity_complement _ _ _
  | composition id first second =>
    rw [read_composition]
    exact Reading.ofArity_join _ _
  | converse id relation =>
    rw [read_converse]
    exact Reading.ofArity_join _ _

/-- The rows of the relations of an arity have it. -/
theorem Valid.length_of_ofArity (hs : s.Valid) {registry : String} {arity : Nat}
    (hb : b ∈ s.ofArity registry arity) : ∀ t ∈ (s.extension b).rows, t.length = arity := by
  obtain ⟨hregistered, harity⟩ := List.mem_filter.mp hb
  intro t ht
  rw [hs.length_of_mem_extension (hs.registered hregistered) ht]
  simpa using harity

/-- The rows that a complement is taken in have the arity of its operand, and none of them comes
twice. -/
theorem ofArity_ambient (hs : s.Valid) (registry : String) (arity id : Nat) :
    (s.ambient registry arity id).OfArity arity :=
  (Extension.ofArity_empty arity).foldl fun _ hb _ hx =>
    hx.pushAll (hs.length_of_ofArity (List.mem_of_mem_filter hb))

end Store

end RelationAlgebra
