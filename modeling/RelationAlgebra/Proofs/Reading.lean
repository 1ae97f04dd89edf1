import RelationAlgebra.Proofs.Binding
import RelationAlgebra.Proofs.Extension
import RelationAlgebra.Proofs.Search

/-!
# What the combinators say

For each combinator, which tuples its reading enumerates and which it lists, in terms of valuations
of the output columns. Joins and complements are stated over any operands; that enumeration and
listing coincide is then read off for operands for which they coincide.
-/

namespace RelationAlgebra.Reading

variable {output : List Var} {operand : Bound Reading} {operands : List (Bound Reading)}
  {ambient : Extension} {t : Tuple}

theorem emit_eq_pushAll (x : Extension) (α : Assignment) :
    emit output x α = x.pushAll (α.project? output).toList := by
  rw [emit]
  cases α.project? output <;> rfl

theorem mem_rows_foldl_emit {αs : List Assignment} {x : Extension} :
    t ∈ (αs.foldl (emit output) x).rows ↔
      t ∈ x.rows ∨ ∃ α ∈ αs, α.project? output = some t := by
  rw [Extension.foldl_eq_pushAll emit_eq_pushAll, Extension.mem_rows_pushAll, List.mem_filterMap]

theorem lists_derived {rows : Thunk Extension} {witnessed : Assignment → Bool} :
    (derived output rows witnessed).lists t = true ↔
      t.length = output.length ∧ witnessed (.ofOutput output t) = true := by
  simp [derived]

/-! ## Joins -/

/-- A join pushes the tuples of the solutions in turn. -/
theorem extension_join (output : List Var) (operands : List (Bound Reading)) :
    (join output operands).extension =
      (solutions operands []).foldl (emit output) (.empty output.length) :=
  search_yield (emit output) operands [] _

/-- A join enumerates what the search reaches from nothing. -/
theorem mem_rows_join (hp : ∀ o ∈ operands, Proper o)
    (hout : ∀ v ∈ output, ∃ o ∈ operands, .var v ∈ o.slots) :
    t ∈ (join output operands).extension.rows ↔
      ∃ ν, Reaches operands [] ν ∧ t = output.map ν := by
  have hassigns : ∀ α ∈ solutions operands [], ∀ v ∈ output, α.Assigns v := fun α hα v hv =>
    (assigns_of_mem_solutions hp hα).mpr (Or.inr (hout v hv))
  rw [extension_join, mem_rows_foldl_emit]
  constructor
  · rintro (h | ⟨α, hα, ht⟩)
    · simp [Extension.empty] at h
    · obtain ⟨ν, hν, ht⟩ := (Assignment.exists_project?_iff (hassigns α hα)).mp ht
      exact ⟨ν, ⟨α, hα, hν⟩, ht⟩
  · rintro ⟨ν, ⟨α, hα, hν⟩, ht⟩
    exact Or.inr ⟨α, hα, (Assignment.exists_project?_iff (hassigns α hα)).mpr ⟨ν, hν, ht⟩⟩

/-- A join enumerates the tuple of a valuation just if all operands go along with it, asked in turn
when no variable is known. -/
theorem map_mem_rows_join_iff {ν : Valuation} (hp : ∀ o ∈ operands, Proper o)
    (hout : ∀ v, v ∈ output ↔ ∃ o ∈ operands, .var v ∈ o.slots) :
    output.map ν ∈ (join output operands).extension.rows ↔
      MeetAll ν (fun _ => False) operands := by
  have hnil : ∀ μ, Reaches operands [] μ ↔ MeetAll μ (fun _ => False) operands := by
    intro μ
    have hassigns : Assignment.Assigns [] = fun _ => False :=
      funext fun v => eq_false (Assignment.not_assigns_nil v)
    rw [reaches_iff_meetAll hp, hassigns]
    simp [Assignment.within_nil]
  rw [mem_rows_join hp fun v hv => (hout v).mp hv]
  constructor
  · rintro ⟨μ, h, heq⟩
    rw [List.map_inj_left] at heq
    exact ((hnil μ).mp h).congr fun o ho v hv => heq v ((hout v).mpr ⟨o, ho, hv⟩)
  · exact fun h => ⟨ν, (hnil ν).mpr h, rfl⟩

theorem satisfiable_ofOutput_iff (hn : output.Nodup) (hp : ∀ o ∈ operands, Proper o) :
    t.length = output.length ∧ satisfiable operands (.ofOutput output t) = true ↔
      ∃ ν, Reaches operands (.ofOutput output t) ν ∧ t = output.map ν := by
  rw [satisfiable_iff]
  constructor
  · rintro ⟨hlen, β, hβ⟩
    have h := reaches_valuation hβ
    exact ⟨β.valuation, h, (Assignment.within_ofOutput hn hlen).mp (h.within hp)⟩
  · rintro ⟨ν, ⟨β, hβ, -⟩, ht⟩
    exact ⟨by simp [ht], β, hβ⟩

theorem lists_join_iff (hn : output.Nodup) (hp : ∀ o ∈ operands, Proper o) :
    (join output operands).lists t = true ↔
      ∃ ν, Reaches operands (.ofOutput output t) ν ∧ t = output.map ν :=
  lists_derived.trans (satisfiable_ofOutput_iff hn hp)

/-- A search that starts from the columns of a tuple reaches all that a search from nothing reaches
with this tuple. -/
theorem reaches_ofOutput {ν : Valuation} (hn : output.Nodup)
    (ho : ∀ o ∈ operands, Proper o ∧ o.relation.Sound) (h : Reaches operands [] ν) :
    Reaches operands (.ofOutput output (output.map ν)) ν :=
  h.mono ho ((Assignment.within_ofOutput hn (by simp)).mpr rfl)
    fun v hv => absurd hv (Assignment.not_assigns_nil v)

theorem sound_join (hn : output.Nodup) (ho : ∀ o ∈ operands, Proper o ∧ o.relation.Sound)
    (hout : ∀ v ∈ output, ∃ o ∈ operands, .var v ∈ o.slots) :
    (join output operands).Sound := by
  have hp : ∀ o ∈ operands, Proper o := fun o hm => (ho o hm).1
  intro t ht
  obtain ⟨ν, h, rfl⟩ := (mem_rows_join hp hout).mp ht
  exact (lists_join_iff hn hp).mpr ⟨ν, reaches_ofOutput hn ho h, rfl⟩

/-- Over operands that list their rows only, a join enumerates the tuples of the valuations under
which every operand has a row. -/
theorem mem_rows_join_of_exact (ho : ∀ o ∈ operands, Proper o ∧ o.relation.Exact)
    (hout : ∀ v ∈ output, ∃ o ∈ operands, .var v ∈ o.slots) :
    t ∈ (join output operands).extension.rows ↔
      ∃ ν, (∀ o ∈ operands, HasRow o ν) ∧ t = output.map ν := by
  rw [mem_rows_join (fun o hm => (ho o hm).1) hout]
  simp only [reaches_iff ho, Assignment.within_nil, true_and]

theorem exact_join (hn : output.Nodup) (ho : ∀ o ∈ operands, Proper o ∧ o.relation.Exact)
    (hout : ∀ v ∈ output, ∃ o ∈ operands, .var v ∈ o.slots) :
    (join output operands).Exact := by
  intro t
  rw [lists_join_iff hn fun o hm => (ho o hm).1, mem_rows_join_of_exact ho hout]
  refine exists_congr fun ν => and_congr_left fun ht => ?_
  have hν : Assignment.Within (.ofOutput output t) ν :=
    (Assignment.within_ofOutput hn (by simp [ht])).mpr ht
  simp [reaches_iff ho, hν]

/-! ## Unions -/

theorem mem_activeDomain {a : Atom} :
    a ∈ activeDomain operands ↔
      ∃ o ∈ operands, ∃ row ∈ o.relation.extension.rows, a ∈ row := by
  simp [activeDomain, Extension.atoms, List.mem_eraseDups]

/-- One operand of a union pushes the tuples of its solutions, each completed over the domain. -/
theorem emitOperand_eq (output : List Var) (domain : List Atom) (x : Extension)
    (operand : Bound Reading) :
    emitOperand output domain x operand =
      (solutions [operand] []).foldl
        (fun x α => (Assignment.completions domain
          (output.filter fun v => !operand.slots.vars.contains v) α).foldl (emit output) x) x :=
  search_yield _ [operand] [] x

/-- The rows that one operand of a union contributes: its own, with any atoms of the domain in the
columns that it does not mention. -/
theorem mem_rows_emitOperand (hn : output.Nodup) (hp : Proper operand) {domain : List Atom}
    {x : Extension} :
    t ∈ (emitOperand output domain x operand).rows ↔
      t ∈ x.rows ∨
      ∃ ν, Reaches [operand] [] ν ∧
        (∀ v ∈ output, .var v ∉ operand.slots → ν v ∈ domain) ∧ t = output.map ν := by
  have hp' : ∀ o ∈ [operand], Proper o := by simpa using hp
  set missing := output.filter fun v => !operand.slots.vars.contains v with hmissing
  have hmem : ∀ v, v ∈ missing ↔ v ∈ output ∧ .var v ∉ operand.slots := by
    intro v
    simp [hmissing, Slots.mem_vars]
  have hrows : emitOperand output domain x operand =
      (solutions [operand] []).foldl
        (fun x α => (Assignment.completions domain missing α).foldl (emit output) x) x :=
    emitOperand_eq output domain x operand
  rw [hrows, Extension.mem_rows_foldl (P := fun α =>
    ∃ γ ∈ Assignment.completions domain missing α, γ.project? output = some t)
    fun _ _ _ => mem_rows_foldl_emit]
  refine or_congr_right ?_
  -- what a solution assigns are the variables of the operand, and completing adds the missing ones
  have hsol : ∀ α ∈ solutions [operand] [], ∀ v, α.Assigns v ↔ .var v ∈ operand.slots := by
    intro α hα v
    simp [assigns_of_mem_solutions hp' hα, Assignment.not_assigns_nil]
  have hcompl : ∀ α ∈ solutions [operand] [], ∀ ν : Valuation,
      (∃ γ ∈ Assignment.completions domain missing α, γ.Within ν) ↔
        α.Within ν ∧ ∀ v ∈ missing, ν v ∈ domain := by
    intro α hα ν
    refine Assignment.exists_completion_within_iff (hn.filter _) fun v hv => ?_
    rw [hsol α hα]
    exact ((hmem v).mp hv).2
  have hfull : ∀ α ∈ solutions [operand] [], ∀ γ ∈ Assignment.completions domain missing α,
      ∀ v ∈ output, γ.Assigns v := by
    intro α hα γ hγ v hv
    rw [Assignment.assigns_of_mem_completions hγ, hsol α hα, hmem]
    tauto
  have hdomain : ∀ ν : Valuation, (∀ v ∈ missing, ν v ∈ domain) ↔
      ∀ v ∈ output, .var v ∉ operand.slots → ν v ∈ domain := by
    intro ν
    simp only [hmem, and_imp]
  constructor
  · rintro ⟨α, hα, γ, hγ, ht⟩
    obtain ⟨ν, hν, ht⟩ := (Assignment.exists_project?_iff (hfull α hα γ hγ)).mp ht
    obtain ⟨hαν, hdom⟩ := (hcompl α hα ν).mp ⟨γ, hγ, hν⟩
    exact ⟨ν, ⟨α, hα, hαν⟩, (hdomain ν).mp hdom, ht⟩
  · rintro ⟨ν, ⟨α, hα, hαν⟩, hdom, ht⟩
    obtain ⟨γ, hγ, hν⟩ := (hcompl α hα ν).mpr ⟨hαν, (hdomain ν).mpr hdom⟩
    exact ⟨α, hα, γ, hγ, (Assignment.exists_project?_iff (hfull α hα γ hγ)).mpr ⟨ν, hν, ht⟩⟩

/-- A union enumerates what its operands contribute over the active domain of all of them. -/
theorem mem_rows_union (hn : output.Nodup) (hp : ∀ o ∈ operands, Proper o) :
    t ∈ (union output operands).extension.rows ↔
      ∃ o ∈ operands, ∃ ν, Reaches [o] [] ν ∧
        (∀ v ∈ output, .var v ∉ o.slots → ν v ∈ activeDomain operands) ∧ t = output.map ν := by
  have hrows : (union output operands).extension =
      operands.foldl (emitOperand output (activeDomain operands)) (.empty output.length) := rfl
  rw [hrows, Extension.mem_rows_foldl fun o ho x => mem_rows_emitOperand hn (hp o ho)]
  simp [Extension.empty]

theorem lists_union_iff (hn : output.Nodup) (hp : ∀ o ∈ operands, Proper o) :
    (union output operands).lists t = true ↔
      ∃ o ∈ operands, ∃ ν, Reaches [o] (.ofOutput output t) ν ∧ t = output.map ν := by
  rw [union, lists_derived, List.any_eq_true, ← exists_and_left]
  refine exists_congr fun o => ?_
  rw [and_left_comm]
  refine and_congr_right fun ho => satisfiable_ofOutput_iff hn ?_
  simpa using hp o ho

theorem sound_union (hn : output.Nodup) (ho : ∀ o ∈ operands, Proper o ∧ o.relation.Sound) :
    (union output operands).Sound := by
  have hp : ∀ o ∈ operands, Proper o := fun o hm => (ho o hm).1
  intro t ht
  obtain ⟨o, hm, ν, h, -, rfl⟩ := (mem_rows_union hn hp).mp ht
  exact (lists_union_iff hn hp).mpr
    ⟨o, hm, ν, reaches_ofOutput hn (by simpa using ho o hm) h, rfl⟩

/-- Over operands that list their rows only, a union enumerates the tuples of the valuations under
which some operand has a row, and which stay in the active domain where it does not bind them. -/
theorem mem_rows_union_of_exact (hn : output.Nodup)
    (ho : ∀ o ∈ operands, Proper o ∧ o.relation.Exact) :
    t ∈ (union output operands).extension.rows ↔
      ∃ o ∈ operands, ∃ ν, HasRow o ν ∧
        (∀ v ∈ output, .var v ∉ o.slots → ν v ∈ activeDomain operands) ∧ t = output.map ν := by
  rw [mem_rows_union hn fun o hm => (ho o hm).1]
  refine exists_congr fun o => and_congr_right fun hm => exists_congr fun ν => ?_
  rw [reaches_iff (by simpa using ho o hm)]
  simp [Assignment.within_nil]

/-- Over operands that list their rows only, a union lists the tuples of the valuations under which
some operand has a row. -/
theorem lists_union_of_exact (hn : output.Nodup)
    (ho : ∀ o ∈ operands, Proper o ∧ o.relation.Exact) :
    (union output operands).lists t = true ↔
      ∃ o ∈ operands, ∃ ν, HasRow o ν ∧ t = output.map ν := by
  rw [lists_union_iff hn fun o hm => (ho o hm).1]
  refine exists_congr fun o => and_congr_right fun hm => exists_congr fun ν =>
    and_congr_left fun ht => ?_
  have hν : Assignment.Within (.ofOutput output t) ν :=
    (Assignment.within_ofOutput hn (by simp [ht])).mpr ht
  rw [reaches_iff (by simpa using ho o hm)]
  simp [hν]

theorem exact_union (hn : output.Nodup) (ho : ∀ o ∈ operands, Proper o ∧ o.relation.Exact)
    (hcover : ∀ o ∈ operands, ∀ v ∈ output, .var v ∈ o.slots) :
    (union output operands).Exact := by
  intro t
  rw [lists_union_of_exact hn ho, mem_rows_union_of_exact hn ho]
  refine exists_congr fun o => and_congr_right fun hm => exists_congr fun ν =>
    and_congr_right fun _ => ?_
  exact ⟨fun ht => ⟨fun v hv hno => absurd (hcover o hm v hv) hno, ht⟩, fun h => h.2⟩

/-! ## Complements -/

/-- What a complement does with one ambient row. -/
def round (output : List Var) (operand : Bound Reading) (x : Extension) (row : Tuple) : Extension :=
  match Assignment.unify [] operand.slots row with
  | some α => if !operand.relation.accepts row then emit output x α else x
  | none => x

theorem extension_complement (output : List Var) (ambient : Extension) (operand : Bound Reading) :
    (complement output ambient operand).extension =
      ambient.rows.foldl (round output operand) (.empty output.length) := rfl

theorem round_eq_pushAll (output : List Var) (operand : Bound Reading) (x : Extension)
    (row : Tuple) :
    round output operand x row =
      x.pushAll (if !operand.relation.accepts row then operand.slots.project? output row
        else none).toList := by
  rw [round, Slots.project?]
  cases Assignment.unify [] operand.slots row with
  | none => simp [Extension.pushAll]
  | some α =>
    cases operand.relation.accepts row with
    | true => simp [Extension.pushAll]
    | false => simp [emit_eq_pushAll]

/-- One ambient row contributes the tuples of the valuations under which it fits, if the operand
rejects it. -/
theorem mem_rows_round {row : Tuple} (hlen : operand.slots.length = row.length)
    (hout : ∀ v ∈ output, .var v ∈ operand.slots) (x : Extension) :
    t ∈ (round output operand x row).rows ↔
      t ∈ x.rows ∨ ∃ ν : Valuation, operand.slots.Fits ν row ∧
        operand.relation.accepts row = false ∧ t = output.map ν := by
  rw [round_eq_pushAll, Extension.mem_rows_pushAll]
  cases operand.relation.accepts row with
  | true => simp
  | false => simp [Slots.project?_eq_some_iff hlen hout]

/-- A complement enumerates the tuples of the valuations under which some ambient row fits that the
operand rejects. -/
theorem mem_rows_complement (hlen : ∀ row ∈ ambient.rows, operand.slots.length = row.length)
    (hout : ∀ v ∈ output, .var v ∈ operand.slots) :
    t ∈ (complement output ambient operand).extension.rows ↔
      ∃ ν, (∃ row ∈ ambient.rows, operand.slots.Fits ν row ∧
        operand.relation.accepts row = false) ∧ t = output.map ν := by
  rw [extension_complement,
    Extension.mem_rows_foldl fun row hrow => mem_rows_round (hlen row hrow) hout]
  constructor
  · rintro (h | ⟨row, hrow, ν, hfit, hacc, ht⟩)
    · simp [Extension.empty] at h
    · exact ⟨ν, ⟨row, hrow, hfit, hacc⟩, ht⟩
  · rintro ⟨ν, ⟨row, hrow, hfit, hacc⟩, ht⟩
    exact Or.inr ⟨row, hrow, ν, hfit, hacc, ht⟩

/-- Where the columns of a tuple settle all slots, asking for the one row that fits answers whether
the operand rejects a fitting ambient row. -/
theorem lookup_complement_iff {row : Tuple} (hn : output.Nodup) (ht : t.length = output.length)
    (hs : (Assignment.ofOutput output t).row? operand.slots = some row) :
    (ambient.contains row && !operand.relation.accepts row) = true ↔
      ∃ ν, (∃ row ∈ ambient.rows, operand.slots.Fits ν row ∧
        operand.relation.accepts row = false) ∧ t = output.map ν := by
  simp only [Bool.and_eq_true, Extension.contains_iff, Bool.not_eq_true']
  constructor
  · rintro ⟨hrow, hacc⟩
    have hν := (Assignment.ofOutput output t).within_valuation
    exact ⟨_, ⟨row, hrow, (Assignment.fits_iff_of_row? hν hs).mpr rfl, hacc⟩,
      (Assignment.within_ofOutput hn ht).mp hν⟩
  · rintro ⟨ν, ⟨row', hrow, hfit, hacc⟩, htν⟩
    have hν := (Assignment.within_ofOutput hn ht).mpr htν
    have heq : row' = row := (Assignment.fits_iff_of_row? hν hs).mp hfit
    exact ⟨heq ▸ hrow, heq ▸ hacc⟩

/-- Walking the ambient rows answers whether the operand rejects a fitting one, whatever the columns
of the tuple settle. -/
theorem scan_complement_iff (hn : output.Nodup)
    (hlen : ∀ row ∈ ambient.rows, operand.slots.length = row.length)
    (ht : t.length = output.length) :
    (ambient.rows.any fun row =>
        ((Assignment.ofOutput output t).unify operand.slots row).isSome &&
          !operand.relation.accepts row) = true ↔
      ∃ ν, (∃ row ∈ ambient.rows, operand.slots.Fits ν row ∧
        operand.relation.accepts row = false) ∧ t = output.map ν := by
  simp only [List.any_eq_true, Bool.and_eq_true, Bool.not_eq_true', Option.isSome_iff_exists]
  constructor
  · rintro ⟨row, hrow, ⟨β, hu⟩, hacc⟩
    obtain ⟨hν, hfit⟩ := (Assignment.within_of_unify (hlen row hrow) hu).mp β.within_valuation
    exact ⟨_, ⟨row, hrow, hfit, hacc⟩, (Assignment.within_ofOutput hn ht).mp hν⟩
  · rintro ⟨ν, ⟨row, hrow, hfit, hacc⟩, htν⟩
    have hν := (Assignment.within_ofOutput hn ht).mpr htν
    exact ⟨row, hrow, Assignment.exists_unify_of_fits hν hfit, hacc⟩

/-- A complement lists the same tuples, whether it looks a row up or walks the ambient rows. -/
theorem lists_complement_iff (hn : output.Nodup)
    (hlen : ∀ row ∈ ambient.rows, operand.slots.length = row.length) :
    (complement output ambient operand).lists t = true ↔
      ∃ ν, (∃ row ∈ ambient.rows, operand.slots.Fits ν row ∧
        operand.relation.accepts row = false) ∧ t = output.map ν := by
  rw [complement, lists_derived]
  have hlength : (∃ ν, (∃ row ∈ ambient.rows, operand.slots.Fits ν row ∧
      operand.relation.accepts row = false) ∧ t = output.map ν) → t.length = output.length := by
    rintro ⟨ν, -, ht⟩
    simp [ht]
  cases hs : (Assignment.ofOutput output t).row? operand.slots with
  | some row =>
    exact ⟨fun h => (lookup_complement_iff hn h.1 hs).mp h.2,
      fun h => ⟨hlength h, (lookup_complement_iff hn (hlength h) hs).mpr h⟩⟩
  | none =>
    exact ⟨fun h => (scan_complement_iff hn hlen h.1).mp h.2,
      fun h => ⟨hlength h, (scan_complement_iff hn hlen (hlength h)).mpr h⟩⟩

/-- A complement lists the tuples that it enumerates, whatever its operand accepts. -/
theorem exact_complement (hn : output.Nodup)
    (hlen : ∀ row ∈ ambient.rows, operand.slots.length = row.length)
    (hout : ∀ v ∈ output, .var v ∈ operand.slots) :
    (complement output ambient operand).Exact := by
  intro t
  rw [lists_complement_iff hn hlen, mem_rows_complement hlen hout]

end RelationAlgebra.Reading
