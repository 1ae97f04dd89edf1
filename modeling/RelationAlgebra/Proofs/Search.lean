import RelationAlgebra.Proofs.Matching
import RelationAlgebra.Reading

/-!
# What the search finds

The search offers its visitor the assignments of a plain nested loop, `solutions`, in their order and
until the visitor is done (`search_eq_offer`). Which solutions there are is said through valuations:
`Reaches` holds of the valuations that extend some solution. These are the valuations with which the
operands go along when they are asked in turn (`reaches_iff_meetAll`): an operand whose slots are
settled by the variables before it is asked whether it lists its row, any other must have a fitting
row. Over operands that list exactly their rows every operand must have a fitting row (`reaches_iff`).
Over operands that list at least their rows, a search that starts from more values still reaches every
valuation that it reached before (`Reaches.mono`).
-/

namespace RelationAlgebra.Reading

variable {σ : Type}

/-! ## The nested loop -/

/-- The assignments to which one operand extends an assignment, in the order of its rows. An operand
with settled slots adds no value and is asked for its row. -/
def extend (operand : Bound Reading) (α : Assignment) : List Assignment :=
  match α.row? operand.slots with
  | some row => if operand.relation.lists row then [α] else []
  | none => operand.relation.extension.rows.filterMap (α.unify operand.slots)

/-- An operand whose slots are settled is asked for the one row. -/
theorem extend_of_settled {operand : Bound Reading} {α : Assignment} {row : Tuple}
    (h : α.row? operand.slots = some row) :
    extend operand α = if operand.relation.lists row then [α] else [] := by
  simp [extend, h]

theorem extend_of_open {operand : Bound Reading} {α : Assignment}
    (h : α.row? operand.slots = none) :
    extend operand α = operand.relation.extension.rows.filterMap (α.unify operand.slots) := by
  simp [extend, h]

/-- The assignments that extend `α` and fit a row of every operand: a loop over the rows of each
operand inside that of the operand before it. -/
def solutions : List (Bound Reading) → Assignment → List Assignment
  | [], α => [α]
  | operand :: operands, α => (extend operand α).flatMap (solutions operands)

/-- Offers the listed assignments in turn to `visit`, until `visit` is done. -/
def offer (visit : Assignment → σ → ForInStep σ) : List Assignment → σ → ForInStep σ
  | [], s => .yield s
  | α :: rest, s =>
    match visit α s with
    | .done s => .done s
    | .yield s => offer visit rest s

/-- A visitor that stops in the first part does not see the second. -/
theorem offer_append (visit : Assignment → σ → ForInStep σ) (αs βs : List Assignment) (s : σ) :
    offer visit (αs ++ βs) s =
      match offer visit αs s with
      | .done s => .done s
      | .yield s => offer visit βs s := by
  induction αs generalizing s with
  | nil => rfl
  | cons α αs ih =>
    simp only [List.cons_append, offer]
    cases visit α s with
    | done s => rfl
    | yield s => exact ih s

/-- To offer lists one after another is to offer what they come to. -/
theorem offer_flatMap (visit : Assignment → σ → ForInStep σ) (f : Assignment → List Assignment)
    (αs : List Assignment) (s : σ) :
    offer visit (αs.flatMap f) s = offer (fun α => offer visit (f α)) αs s := by
  induction αs generalizing s with
  | nil => rfl
  | cons α αs ih =>
    rw [List.flatMap_cons, offer_append, offer]
    cases offer visit (f α) s with
    | done s => rfl
    | yield s => exact ih s

/-- A walk over rows offers the assignments that match, in the order of the rows. -/
theorem walk_eq_offer (visit : Assignment → σ → ForInStep σ) (slots : Slots) (α : Assignment)
    (rows : List Tuple) (s : σ) :
    walk visit slots α rows s = offer visit (rows.filterMap (α.unify slots)) s := by
  induction rows generalizing s with
  | nil => rfl
  | cons row rows ih =>
    rw [walk]
    cases h : α.unify slots row with
    | none => rw [List.filterMap_cons_none h, ih]
    | some β =>
      rw [List.filterMap_cons_some h, offer]
      dsimp only
      cases visit β s with
      | done s => rfl
      | yield s => exact ih s

/-- The search offers the solutions of the nested loop, in their order. -/
theorem search_eq_offer (visit : Assignment → σ → ForInStep σ) (operands : List (Bound Reading))
    (α : Assignment) (s : σ) :
    search visit operands α s = offer visit (solutions operands α) s := by
  induction operands generalizing α s with
  | nil =>
    simp only [search, solutions, offer]
    cases visit α s <;> rfl
  | cons operand operands ih =>
    have hvisit : search visit operands = fun α => offer visit (solutions operands α) :=
      funext fun α => funext (ih α)
    rw [search, solutions, offer_flatMap, ← hvisit]
    cases h : α.row? operand.slots with
    | none =>
      rw [extend_of_open h]
      exact walk_eq_offer _ _ _ _ _
    | some row =>
      rw [extend_of_settled h]
      dsimp only
      by_cases hrow : operand.relation.lists row = true
      · rw [if_pos hrow, if_pos hrow, offer]
        cases search visit operands α s <;> rfl
      · rw [if_neg hrow, if_neg hrow]
        rfl

theorem offer_yield (f : σ → Assignment → σ) (αs : List Assignment) (s : σ) :
    offer (fun α s => .yield (f s α)) αs s = .yield (αs.foldl f s) := by
  induction αs generalizing s with
  | nil => rfl
  | cons α αs ih => exact ih (f s α)

/-- A visitor that never stops folds over all solutions. -/
theorem search_yield (f : σ → Assignment → σ) (operands : List (Bound Reading)) (α : Assignment)
    (s : σ) :
    (search (fun α s => .yield (f s α)) operands α s).value =
      (solutions operands α).foldl f s := by
  rw [search_eq_offer, offer_yield]
  rfl

/-- The test stops at the first solution, if there is one. -/
theorem satisfiable_iff {operands : List (Bound Reading)} {α : Assignment} :
    satisfiable operands α = true ↔ ∃ β, β ∈ solutions operands α := by
  rw [satisfiable, search_eq_offer]
  cases solutions operands α with
  | nil => simp [offer, ForInStep.value]
  | cons β βs => simp [offer, ForInStep.value]

/-! ## Solutions and valuations -/

section Valuations

variable {operand : Bound Reading} {operands : List (Bound Reading)} {α β γ : Assignment}
  {ν : Valuation} {v : Var}

/-- Whether the rows of a reading have as many slots as the operand binds. -/
def Proper (operand : Bound Reading) : Prop :=
  ∀ row ∈ operand.relation.extension.rows, operand.slots.length = row.length

/-- Whether a reading lists each of its rows. -/
def Sound (r : Reading) : Prop := ∀ t ∈ r.extension.rows, r.lists t = true

/-- Whether a reading lists its rows and nothing else. -/
def Exact (r : Reading) : Prop := ∀ t, r.lists t = true ↔ t ∈ r.extension.rows

theorem Exact.sound {r : Reading} (h : r.Exact) : r.Sound := fun t => (h t).mpr

/-- Whether some row of an operand fits its bindings under a valuation. -/
def HasRow (operand : Bound Reading) (ν : Valuation) : Prop :=
  ∃ row ∈ operand.relation.extension.rows, operand.slots.Fits ν row

/-- Whether the search comes from `α` to an assignment that `ν` extends. -/
def Reaches (operands : List (Bound Reading)) (α : Assignment) (ν : Valuation) : Prop :=
  ∃ β ∈ solutions operands α, β.Within ν

/-- The two ways in which an operand extends an assignment. -/
theorem mem_extend_iff :
    β ∈ extend operand α ↔
      (∃ row, α.row? operand.slots = some row ∧ operand.relation.lists row = true ∧ β = α) ∨
      (α.row? operand.slots = none ∧
        ∃ row ∈ operand.relation.extension.rows, α.unify operand.slots row = some β) := by
  cases h : α.row? operand.slots with
  | some row => simp [extend_of_settled h, and_comm]
  | none => simp [extend_of_open h, List.mem_filterMap]

theorem reaches_nil : Reaches [] α ν ↔ α.Within ν := by simp [Reaches, solutions]

theorem reaches_cons :
    Reaches (operand :: operands) α ν ↔ ∃ β ∈ extend operand α, Reaches operands β ν := by
  simp only [Reaches, solutions, List.mem_flatMap]
  constructor
  · rintro ⟨γ, ⟨β, hβ, hγ⟩, hν⟩
    exact ⟨β, hβ, γ, hγ, hν⟩
  · rintro ⟨β, hβ, γ, hγ, hν⟩
    exact ⟨γ, ⟨β, hβ, hγ⟩, hν⟩

theorem reaches_valuation (h : β ∈ solutions operands α) : Reaches operands α β.valuation :=
  ⟨β, h, β.within_valuation⟩

/-- An operand only adds to an assignment. -/
theorem within_of_mem_extend (ho : Proper operand) (h : β ∈ extend operand α)
    (hβ : β.Within ν) : α.Within ν := by
  rcases mem_extend_iff.mp h with ⟨_, _, _, rfl⟩ | ⟨_, row, hrow, hu⟩
  · exact hβ
  · exact ((Assignment.within_of_unify (ho row hrow) hu).mp hβ).1

theorem assigns_of_mem_extend (ho : Proper operand) (h : β ∈ extend operand α) :
    β.Assigns v ↔ α.Assigns v ∨ .var v ∈ operand.slots := by
  rcases mem_extend_iff.mp h with ⟨row, hs, _, rfl⟩ | ⟨_, row, hrow, hu⟩
  · exact ⟨Or.inl, fun hv => hv.elim id (Assignment.assigns_of_row? hs)⟩
  · exact Assignment.assigns_of_unify (ho row hrow) hu

/-- A solution assigns the variables of all operands besides those assigned before. -/
theorem assigns_of_mem_solutions (ho : ∀ o ∈ operands, Proper o)
    (h : β ∈ solutions operands α) :
    β.Assigns v ↔ α.Assigns v ∨ ∃ o ∈ operands, .var v ∈ o.slots := by
  induction operands generalizing α with
  | nil =>
    rw [solutions, List.mem_singleton] at h
    simp [h]
  | cons operand operands ih =>
    rw [List.forall_mem_cons] at ho
    rw [solutions, List.mem_flatMap] at h
    obtain ⟨γ, hγ, hβ⟩ := h
    rw [ih ho.2 hβ, assigns_of_mem_extend ho.1 hγ, or_assoc]
    simp

/-! ## Asking the operands in turn -/

/-- Whether some row that an operand lists fits its bindings under a valuation. -/
def ListsRow (operand : Bound Reading) (ν : Valuation) : Prop :=
  ∃ row, operand.slots.Fits ν row ∧ operand.relation.lists row = true

/-- Whether an operand goes along with a valuation when some variables are known: it is asked
whether it lists its row if these settle all slots, and needs a fitting row otherwise. -/
def Meets (known : Var → Prop) (operand : Bound Reading) (ν : Valuation) : Prop :=
  (operand.slots.Settled known ∧ ListsRow operand ν) ∨
    (¬ operand.slots.Settled known ∧ HasRow operand ν)

/-- Whether all operands go along with a valuation when they are asked in turn, the variables of each
being known to those after it. -/
def MeetAll (ν : Valuation) : (Var → Prop) → List (Bound Reading) → Prop
  | _, [] => True
  | known, operand :: operands =>
    Meets known operand ν ∧ MeetAll ν (fun v => known v ∨ .var v ∈ operand.slots) operands

theorem assigns_eq_of_mem_extend (ho : Proper operand) (h : β ∈ extend operand α) :
    β.Assigns = fun v => α.Assigns v ∨ .var v ∈ operand.slots :=
  funext fun _ => propext (assigns_of_mem_extend ho h)

theorem HasRow.listsRow (hs : operand.relation.Sound) (h : HasRow operand ν) :
    ListsRow operand ν := by
  obtain ⟨row, hrow, hfit⟩ := h
  exact ⟨row, hfit, hs row hrow⟩

/-- Whether a row fits depends on the variables of the operand alone. -/
theorem HasRow.congr {μ : Valuation} (h : HasRow operand ν)
    (heq : ∀ v, .var v ∈ operand.slots → μ v = ν v) : HasRow operand μ := by
  obtain ⟨row, hrow, hfit⟩ := h
  exact ⟨row, hrow, hfit.congr heq⟩

theorem Meets.congr {known : Var → Prop} {μ : Valuation} (h : Meets known operand ν)
    (heq : ∀ v, .var v ∈ operand.slots → μ v = ν v) : Meets known operand μ := by
  rcases h with ⟨hs, row, hfit, hl⟩ | ⟨hs, h⟩
  · exact Or.inl ⟨hs, row, hfit.congr heq, hl⟩
  · exact Or.inr ⟨hs, h.congr heq⟩

/-- Going along depends on the variables of the operands alone. -/
theorem MeetAll.congr {known : Var → Prop} {μ : Valuation} (h : MeetAll ν known operands)
    (heq : ∀ o ∈ operands, ∀ v, .var v ∈ o.slots → μ v = ν v) : MeetAll μ known operands := by
  induction operands generalizing known with
  | nil => trivial
  | cons operand operands ih =>
    rw [List.forall_mem_cons] at heq
    exact ⟨h.1.congr heq.1, ih h.2 heq.2⟩

/-- One operand extends an assignment towards a valuation just if it goes along with it. -/
theorem exists_mem_extend_iff (ho : Proper operand) :
    (∃ β ∈ extend operand α, β.Within ν) ↔ α.Within ν ∧ Meets α.Assigns operand ν := by
  constructor
  · rintro ⟨β, hβ, hν⟩
    have hα : α.Within ν := within_of_mem_extend ho hβ hν
    rcases mem_extend_iff.mp hβ with ⟨row, hs, hl, rfl⟩ | ⟨hs, row, hrow, hu⟩
    · exact ⟨hα, Or.inl ⟨Assignment.exists_row?_iff.mp ⟨row, hs⟩, row,
        (Assignment.fits_iff_of_row? hν hs).mpr rfl, hl⟩⟩
    · refine ⟨hα, Or.inr ⟨?_, row, hrow, ((Assignment.within_of_unify (ho row hrow) hu).mp hν).2⟩⟩
      rw [← Assignment.exists_row?_iff, hs]
      simp
  · rintro ⟨hα, ⟨hs, row, hfit, hl⟩ | ⟨hs, row, hrow, hfit⟩⟩
    · obtain ⟨row', hs'⟩ := Assignment.exists_row?_iff.mpr hs
      have heq : row = row' := (Assignment.fits_iff_of_row? hα hs').mp hfit
      exact ⟨α, mem_extend_iff.mpr (Or.inl ⟨row', hs', heq ▸ hl, rfl⟩), hα⟩
    · have hnone : α.row? operand.slots = none := by
        rw [← Assignment.exists_row?_iff] at hs
        exact Option.eq_none_iff_forall_ne_some.mpr fun row' h' => hs ⟨row', h'⟩
      obtain ⟨β, hu⟩ := Assignment.exists_unify_of_fits hα hfit
      exact ⟨β, mem_extend_iff.mpr (Or.inr ⟨hnone, row, hrow, hu⟩),
        (Assignment.within_of_unify (ho row hrow) hu).mpr ⟨hα, hfit⟩⟩

/-- The search reaches the valuations of `α` with which all operands go along. -/
theorem reaches_iff_meetAll (ho : ∀ o ∈ operands, Proper o) :
    Reaches operands α ν ↔ α.Within ν ∧ MeetAll ν α.Assigns operands := by
  induction operands generalizing α with
  | nil => simp [reaches_nil, MeetAll]
  | cons operand operands ih =>
    rw [List.forall_mem_cons] at ho
    rw [reaches_cons, MeetAll, ← and_assoc, ← exists_mem_extend_iff ho.1]
    constructor
    · rintro ⟨β, hβ, h⟩
      obtain ⟨hν, hrest⟩ := (ih ho.2).mp h
      exact ⟨⟨β, hβ, hν⟩, assigns_eq_of_mem_extend ho.1 hβ ▸ hrest⟩
    · rintro ⟨⟨β, hβ, hν⟩, hrest⟩
      -- every extension by this operand knows the same variables, whichever row it comes from
      rw [← assigns_eq_of_mem_extend ho.1 hβ] at hrest
      exact ⟨β, hβ, (ih ho.2).mpr ⟨hν, hrest⟩⟩

theorem Reaches.within (ho : ∀ o ∈ operands, Proper o) (h : Reaches operands α ν) :
    α.Within ν :=
  ((reaches_iff_meetAll ho).mp h).1

theorem meets_of_settled {known : Var → Prop} (h : operand.slots.Settled known) :
    Meets known operand ν ↔ ListsRow operand ν := by simp [Meets, h]

theorem meets_of_open {known : Var → Prop} (h : ¬ operand.slots.Settled known) :
    Meets known operand ν ↔ HasRow operand ν := by simp [Meets, h]

theorem hasRow_vars (r : Reading) (vs : List Var) :
    HasRow ⟨r, vs.map .var⟩ ν ↔ vs.map ν ∈ r.extension.rows := by
  simp [HasRow, Slots.fits_vars_iff]

theorem listsRow_vars (r : Reading) (vs : List Var) :
    ListsRow ⟨r, vs.map .var⟩ ν ↔ r.lists (vs.map ν) = true := by
  simp [ListsRow, Slots.fits_vars_iff]

/-- If an operand lists just its rows, it is the same to ask it and to go through it. -/
theorem meets_iff_hasRow {known : Var → Prop} (hx : operand.relation.Exact) :
    Meets known operand ν ↔ HasRow operand ν := by
  have hlists : ListsRow operand ν ↔ HasRow operand ν :=
    exists_congr fun row => by rw [hx row, and_comm]
  unfold Meets
  rw [hlists]
  tauto

/-- Among exact operands the order in which they are asked does not matter. -/
theorem meetAll_iff {known : Var → Prop} (hx : ∀ o ∈ operands, o.relation.Exact) :
    MeetAll ν known operands ↔ ∀ o ∈ operands, HasRow o ν := by
  induction operands generalizing known with
  | nil => simp [MeetAll]
  | cons operand operands ih =>
    rw [List.forall_mem_cons] at hx ⊢
    rw [MeetAll, meets_iff_hasRow hx.1, ih hx.2]

/-- Over operands that list their rows and nothing else, looking a row up comes to the same as
walking the rows: the search reaches the valuations of `α` under which every operand has a row. -/
theorem reaches_iff (ho : ∀ o ∈ operands, Proper o ∧ o.relation.Exact) :
    Reaches operands α ν ↔ α.Within ν ∧ ∀ o ∈ operands, HasRow o ν := by
  rw [reaches_iff_meetAll fun o hm => (ho o hm).1, meetAll_iff fun o hm => (ho o hm).2]

/-- An operand that lists its rows goes along when more is known: a row that it has it may also be
asked for. -/
theorem Meets.mono {known known' : Var → Prop} (hs : operand.relation.Sound)
    (hknown : ∀ v, known v → known' v) (h : Meets known operand ν) : Meets known' operand ν := by
  by_cases hsettled : operand.slots.Settled known'
  · refine Or.inl ⟨hsettled, ?_⟩
    rcases h with ⟨-, h⟩ | ⟨-, h⟩
    · exact h
    · exact h.listsRow hs
  · refine Or.inr ⟨hsettled, ?_⟩
    rcases h with ⟨h, -⟩ | ⟨-, h⟩
    · exact absurd (h.mono hknown) hsettled
    · exact h

theorem MeetAll.mono {known known' : Var → Prop} (hs : ∀ o ∈ operands, o.relation.Sound)
    (hknown : ∀ v, known v → known' v) (h : MeetAll ν known operands) :
    MeetAll ν known' operands := by
  induction operands generalizing known known' with
  | nil => trivial
  | cons operand operands ih =>
    rw [List.forall_mem_cons] at hs
    exact ⟨h.1.mono hs.1 hknown, ih hs.2 (fun v => Or.imp_left (hknown v)) h.2⟩

/-- Over operands that list their rows, and perhaps more, a search with more values replays a search
with fewer. -/
theorem Reaches.mono (ho : ∀ o ∈ operands, Proper o ∧ o.relation.Sound)
    (h : Reaches operands α ν) (hγ : γ.Within ν) (hαγ : ∀ v, α.Assigns v → γ.Assigns v) :
    Reaches operands γ ν := by
  rw [reaches_iff_meetAll fun o hm => (ho o hm).1] at h ⊢
  exact ⟨hγ, h.2.mono (fun o hm => (ho o hm).2) hαγ⟩

end Valuations

end RelationAlgebra.Reading
