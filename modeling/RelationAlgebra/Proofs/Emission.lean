import RelationAlgebra.Proofs.Access
import RelationAlgebra.Proofs.Arity
import RelationAlgebra.Proofs.Recursion

/-!
# Rows that are emitted

A combinator emits a row where it has found an assignment. An output variable without a value is a
fault here, and so is a row of another length than the others; a complement looks at the first of
its operands, and to have none is a fault as well. Evaluation is written out with these faults and
with those of slots that are not there (`Store.probe`).

No relation over a store ever runs into one (`Store.probe_eq_total`): the search gives a value to
every variable of an operand, and completing an assignment gives one to every other output variable.
So no row is dropped, and `Reading.emit` never has nothing to emit.
-/

namespace RelationAlgebra

namespace Faulting

variable {output : List Var} {operand : Bound Reading} {operands : List (Bound Reading)}
  {x : Extension} {α : Assignment} {αs : List Assignment}

/-! ## Combinators -/

/-- As `Reading.emit`. To have no value for an output variable is a fault. -/
def emit (output : List Var) (x : Extension) (α : Assignment) : Option Extension := do
  x.push? (← α.project? output)

/-- As `Reading.stored`. -/
def stored (properties : PropertySet) (x : Extension) : PartialReading where
  rows := some x
  lists t := some (x.contains t)
  accepts t :=
    if t.length = x.arity then
      if x.contains t then some true
      else if t.length = 2 then do properties.induces? (← t[0]?) (← t[1]?) x
      else some false
    else some false

/-- The extension after a round for every assignment that fits a row of every operand. -/
def collect (round : Extension → Assignment → Option Extension)
    (operands : List (Bound PartialReading)) (x : Extension) : Option Extension := do
  let s ← PartialReading.search (fun α x => .yield (x.bind fun x => round x α)) operands [] (some x)
  s.value

/-- As `Reading.join`. -/
def join (output : List Var) (operands : List (Bound PartialReading)) : PartialReading :=
  { PartialReading.join output operands with
    rows := collect (emit output) operands (.empty output.length) }

/-- As `Reading.emitOperand`. -/
def emitOperand (output : List Var) (domain : List Atom) (x : Extension)
    (operand : Bound PartialReading) : Option Extension :=
  let missing := output.filter fun v => !operand.slots.vars.contains v
  collect (fun x α => (Assignment.completions domain missing α).foldlM (emit output) x) [operand] x

/-- As `Reading.union`. -/
def union (output : List Var) (operands : List (Bound PartialReading)) : PartialReading :=
  { PartialReading.union output operands with
    rows := do
      let domain ← PartialReading.activeDomain operands
      operands.foldlM (emitOperand output domain) (.empty output.length) }

/-- As `Reading.round`. -/
def round (output : List Var) (operand : Bound PartialReading) (x : Extension) (row : Tuple) :
    Option Extension :=
  match Assignment.unify [] operand.slots row with
  | some α => do if ← PartialReading.rejects operand row then emit output x α else return x
  | none => return x

/-- As `Reading.complement`, with the operand looked up among the operands. -/
def complement (output : List Var) (ambient : Option Extension)
    (operands : List (Bound PartialReading)) : PartialReading where
  rows := do
    let operand ← operands[0]?
    (← ambient).rows.foldlM (round output operand) (.empty output.length)
  lists t := do (PartialReading.complement output ambient (← operands[0]?)).lists t
  accepts t := do (PartialReading.complement output ambient (← operands[0]?)).accepts t

/-! ## Combinators without a fault -/

theorem emit_eq (hx : x.OfArity output.length) (h : ∀ v ∈ output, α.Assigns v) :
    emit output x α = some (Reading.emit output x α) := by
  obtain ⟨t, ht⟩ : ∃ t, α.project? output = some t :=
    ⟨_, Assignment.project?_eq_some α.within_valuation h⟩
  have hlen : t.length = x.arity := (Assignment.length_of_project? ht).trans hx.arity.symm
  rw [emit, Reading.emit, ht]
  exact Extension.push?_eq hlen

example (v : Var) (x : Extension) : emit [v] x [] = none := rfl

theorem foldlM_emit (hx : x.OfArity output.length) (h : ∀ α ∈ αs, ∀ v ∈ output, α.Assigns v) :
    αs.foldlM (emit output) x = some (αs.foldl (Reading.emit output) x) :=
  foldlM_eq_some_foldl hx fun α hα _ hx => ⟨emit_eq hx (h α hα), Reading.ofArity_emit hx α⟩

/-- What the rounds for the solutions of a search come to. -/
theorem collect_total {round : Extension → Assignment → Option Extension}
    {round' : Extension → Assignment → Extension} {P : Extension → Prop} (hx : P x)
    (h : ∀ α ∈ Reading.solutions operands [], ∀ x, P x →
      round x α = some (round' x α) ∧ P (round' x α)) :
    collect round (operands.map PartialReading.totalBound) x =
      some ((Reading.solutions operands []).foldl round' x) := by
  rw [collect, PartialReading.search_total, Option.bind_eq_bind, Option.bind_some,
    Reading.search_yield (fun (x : Option Extension) α => x.bind fun x => round x α),
    ← foldlM_eq_some_foldl hx h, List.foldlM_eq_foldl]
  rfl

theorem eq_total_of_rows {q : PartialReading} {r : Reading} {rows : Option Extension}
    (hq : q = .total r) (hrows : rows = some r.extension) : { q with rows } = .total r := by
  rw [hq, hrows]
  rfl

/-- To read a stored relation never faults on an extension whose rows have its arity. -/
theorem stored_eq_total (hx : x.Valid) (properties : PropertySet) :
    stored properties x = .total (.stored properties x) := by
  have haccepts : (stored properties x).accepts =
      fun t => some ((Reading.stored properties x).accepts t) := by
    funext t
    simp only [stored, Reading.stored]
    by_cases hlen : t.length = x.arity
    · rw [if_pos hlen, beq_iff_eq.mpr hlen, Bool.true_and]
      by_cases hrow : x.contains t = true
      · rw [if_pos hrow, hrow, Bool.true_or]
      · rw [if_neg hrow, Bool.eq_false_iff.mpr hrow, Bool.false_or]
        split
        next hpair =>
          obtain ⟨a, b, rfl⟩ := List.length_eq_two.mp hpair
          exact PropertySet.induces?_eq hx properties a b
        next hpair =>
          split
          next => exact absurd rfl hpair
          next => rfl
    · rw [if_neg hlen, beq_false_of_ne hlen, Bool.false_and]
  exact congrArg (PartialReading.mk (some x) fun t => some (x.contains t)) haccepts

/-- Where every output variable stands in some operand, a join has a value for it. -/
theorem join_eq_total (hp : ∀ o ∈ operands, Reading.Proper o)
    (hout : ∀ v ∈ output, ∃ o ∈ operands, .var v ∈ o.slots) :
    join output (operands.map PartialReading.totalBound) = .total (.join output operands) := by
  refine eq_total_of_rows (PartialReading.join_total output operands) ?_
  rw [Reading.extension_join]
  refine collect_total (Extension.ofArity_empty output.length) fun α hα x hx =>
    ⟨emit_eq hx fun v hv => ?_, Reading.ofArity_emit hx α⟩
  exact (Reading.assigns_of_mem_solutions hp hα).mpr (Or.inr (hout v hv))

/-- An operand of a union has values for its own variables, and its solutions are completed to the
others. -/
theorem emitOperand_total (hp : Reading.Proper operand) (hx : x.OfArity output.length)
    (domain : List Atom) :
    emitOperand output domain x (PartialReading.totalBound operand) =
      some (Reading.emitOperand output domain x operand) := by
  rw [Reading.emitOperand_eq]
  change collect _ ([operand].map PartialReading.totalBound) x = _
  refine collect_total hx fun α hα x hx => ⟨foldlM_emit hx ?_, ?_⟩
  · intro γ hγ v hv
    rw [Assignment.assigns_of_mem_completions hγ,
      Reading.assigns_of_mem_solutions (by simpa using hp) hα]
    by_cases hmentioned : v ∈ operand.slots.vars
    · exact Or.inl (Or.inr ⟨operand, by simp, Slots.mem_vars.mp hmentioned⟩)
    · exact Or.inr (List.mem_filter.mpr ⟨hv, by simpa [PartialReading.totalBound] using hmentioned⟩)
  · exact hx.foldl fun γ _ _ hx => Reading.ofArity_emit hx γ

theorem union_eq_total (hp : ∀ o ∈ operands, Reading.Proper o) :
    union output (operands.map PartialReading.totalBound) = .total (.union output operands) := by
  refine eq_total_of_rows (PartialReading.union_total output operands) ?_
  rw [PartialReading.activeDomain_total, Option.bind_eq_bind, Option.bind_some, List.foldlM_map]
  exact foldlM_eq_some_foldl (Extension.ofArity_empty output.length) fun o ho x hx =>
    ⟨emitOperand_total (hp o ho) hx _, Reading.ofArity_emitOperand hx _ o⟩

/-- A row that matches the operand gives a value to every variable of it. -/
theorem round_total {row : Tuple} (hx : x.OfArity output.length)
    (hlen : operand.slots.length = row.length) (hout : ∀ v ∈ output, .var v ∈ operand.slots) :
    round output (PartialReading.totalBound operand) x row =
      some (Reading.round output operand x row) := by
  have hslots : (PartialReading.totalBound operand).slots = operand.slots := rfl
  rw [round, Reading.round, PartialReading.rejects_total, hslots]
  cases hmatch : Assignment.unify [] operand.slots row with
  | none => rfl
  | some α =>
    have hassigns : ∀ v ∈ output, α.Assigns v := fun v hv =>
      (Assignment.assigns_of_unify hlen hmatch).mpr (Or.inr (hout v hv))
    cases operand.relation.accepts row with
    | true => rfl
    | false => exact emit_eq hx hassigns

/-- A complement never faults when its universe has the length of its slots and its operand labels
every output column. -/
theorem complement_eq_total {ambient : Extension}
    (hlen : ∀ row ∈ ambient.rows, operand.slots.length = row.length)
    (hout : ∀ v ∈ output, .var v ∈ operand.slots) :
    complement output (some ambient) [PartialReading.totalBound operand] =
      .total (.complement output ambient operand) := by
  have hrows : ambient.rows.foldlM (round output (PartialReading.totalBound operand))
      (.empty output.length) = some (Reading.complement output ambient operand).extension := by
    rw [Reading.extension_complement]
    exact foldlM_eq_some_foldl (Extension.ofArity_empty output.length) fun row hrow x hx =>
      ⟨round_total hx (hlen row hrow) hout, Reading.ofArity_round hx operand row⟩
  exact eq_total_of_rows (PartialReading.complement_total output ambient operand) hrows

end Faulting

/-! ## Evaluation -/

namespace Store

variable {s : Store} {r : Relation}

/-- As `ambient`, for the complement of a relation. -/
def ambient? (s : Store) (registry : String) (r : Relation) : Option Extension :=
  ((s.ofArity registry r.arity).filter fun b => b.id ≠ r.id).foldlM
    (fun x b => x.pushAll? (s.extension b).rows) (.empty r.arity)

mutual

/-- What a relation answers over a store, if it does not run into a fault. -/
def probe (s : Store) : Relation → PartialReading
  | .base b => Faulting.stored b.properties (s.extension b)
  | .union _ operands => Faulting.union (Bound.correspondence operands) (s.probeAll operands)
  | .intersection _ operands => Faulting.join (Bound.correspondence operands) (s.probeAll operands)
  | .complement _ operand registry =>
    Faulting.complement (Bound.correspondence [operand]) (s.ambient? registry operand.relation)
      [s.probeBound operand]
  | .composition _ first second =>
    Faulting.join Relation.compositionOutput
      [⟨s.probe first, [.var (.index 0), .var (.index 1)]⟩,
       ⟨s.probe second, [.var (.index 1), .var (.index 2)]⟩]
  | .converse _ relation =>
    Faulting.join Relation.converseOutput [⟨s.probe relation, [.var (.index 0), .var (.index 1)]⟩]

/-- The answers of an operand, under the bindings of the operand. -/
def probeBound (s : Store) : Bound Relation → Bound PartialReading
  | ⟨relation, slots⟩ => ⟨s.probe relation, slots⟩

/-- The answers of several operands. -/
def probeAll (s : Store) : List (Bound Relation) → List (Bound PartialReading)
  | [] => []
  | operand :: operands => s.probeBound operand :: s.probeAll operands

end

theorem probeAll_eq_map (s : Store) (operands : List (Bound Relation)) :
    s.probeAll operands = operands.map s.probeBound := by
  induction operands with
  | nil => rfl
  | cons operand operands ih => simp [probeAll, ih]

/-- Every row that a complement is taken in has the arity of the operand. -/
theorem Valid.ambient?_eq (hs : s.Valid) (registry : String) (r : Relation) :
    s.ambient? registry r = some (s.ambient registry r.arity r.id) := by
  refine foldlM_eq_some_foldl (Extension.ofArity_empty r.arity) fun b hb x hx => ?_
  have hlen := hs.length_of_ofArity (List.mem_of_mem_filter hb)
  exact ⟨Extension.pushAll?_eq fun t ht => (hlen t ht).trans hx.arity.symm, hx.pushAll hlen⟩

/-- Operands without a fault. -/
theorem map_probeBound {views : List View}
    (h : ∀ v ∈ views, s.BuiltView v ∧ s.probe v.relation = .total (s.read v.relation)) :
    views.map s.probeBound = (views.map s.readBound).map PartialReading.totalBound := by
  rw [List.map_map]
  refine List.map_congr_left fun v hv => ?_
  rw [probeBound, (h v hv).2, Function.comp_apply, readBound_eq]
  rfl

theorem Valid.proper {views : List View} (hs : s.Valid) (hviews : ∀ v ∈ views, s.BuiltView v) :
    ∀ o ∈ views.map s.readBound, Reading.Proper o :=
  List.forall_mem_map.mpr fun v hv => (hviews v hv).proper ((hviews v hv).relation.regular hs)

/-- No relation over a valid store runs into a fault, whatever it is asked. -/
theorem probe_eq_total (hs : s.Valid) (hr : s.Built r) : s.probe r = .total (s.read r) := by
  refine Built.induction ?base ?union ?intersection ?complement ?composition ?converse hr
  case base =>
    intro b _
    rw [probe, read]
    exact Faulting.stored_eq_total (hs.valid_extension b) b.properties
  case union =>
    intro id views ih
    rw [probe, read_union, probeAll_eq_map, map_probeBound ih]
    exact Faulting.union_eq_total (hs.proper fun v hv => (ih v hv).1)
  case intersection =>
    intro id views ih
    rw [probe, read_intersection, probeAll_eq_map, map_probeBound ih]
    exact Faulting.join_eq_total (hs.proper fun v hv => (ih v hv).1) fun x hx =>
      exists_readBound (Bound.mem_correspondence.mp hx)
  case complement =>
    intro id v registry hv ih
    have hviews : [v].map s.probeBound = ([v].map s.readBound).map PartialReading.totalBound :=
      map_probeBound (by simpa using ⟨hv, ih⟩)
    rw [probe, read_complement, hs.ambient?_eq, ← List.map_singleton, hviews]
    refine Faulting.complement_eq_total (fun row hrow => ?_) fun x hx => ?_
    · rw [readBound_eq, hv.slots, hs.length_of_mem_ambient hrow]
    · simpa using Bound.mem_correspondence.mp hx
  case composition =>
    intro id first second ih
    rw [read_composition]
    exact (congrArg _ (map_probeBound ih)).trans <|
      Faulting.join_eq_total (hs.proper fun v hv => (ih v hv).1) fun x hx =>
        exists_readBound (exists_of_mem_compositionOutput hx)
  case converse =>
    intro id relation ih
    rw [read_converse]
    exact (congrArg _ (map_probeBound ih)).trans <|
      Faulting.join_eq_total (hs.proper fun v hv => (ih v hv).1) fun x hx =>
        exists_readBound (exists_of_mem_converseOutput hx)

end Store

end RelationAlgebra
