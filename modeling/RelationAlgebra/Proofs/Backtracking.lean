import RelationAlgebra.Proofs.NestedLoop

/-!
# Backtracking

The search gives each extension of an assignment a value of its own. Here it works on the one
assignment that there is: a row that matches writes the values of its variables into it, and these
are taken out again before the next row is tried, also where the row fails halfway and where the
visitor is done.

What comes of it is what comes of the search, and the assignment is what it was
(`Backtracking.run_search`). Together with the nested loop this settles what a visitor gets to see
(`Store.search_visits`).
-/

namespace RelationAlgebra

/-- The assignment without the values of the listed variables. -/
def Assignment.forget (vs : List Var) (α : Assignment) : Assignment :=
  α.filter fun entry => !vs.contains entry.1

namespace Backtracking

variable {σ : Type}

/-! ## The search on one assignment -/

/-- Matches a row against bindings, slot by slot, and gives the variables that took their value from
it, after those in `bound`. If the row does not match, the values of all these are taken out. -/
def matchRow : Slots → Tuple → List Var → StateM Assignment (Option (List Var))
  | .wildcard :: slots, _ :: row, bound => matchRow slots row bound
  | .literal x :: slots, y :: row, bound =>
    if x = y then matchRow slots row bound else fail bound
  | .var v :: slots, y :: row, bound => do
    match (← get).get? v with
    | some x => if x = y then matchRow slots row bound else fail bound
    | none =>
      modify fun α => α.assign v y
      matchRow slots row (bound ++ [v])
  | [], _, bound | _, [], bound => return some bound
where
  /-- Takes the values of variables out. -/
  fail (bound : List Var) : StateM Assignment (Option (List Var)) := do
    modify (Assignment.forget bound)
    return none

/-- Goes on with `next` for each of `rows` that matches, until it is done. The values that a row gave
are taken out before the next row. -/
def walk (next : σ → StateM Assignment (ForInStep σ)) (slots : Slots) :
    List Tuple → σ → StateM Assignment (ForInStep σ)
  | [], s => return .yield s
  | row :: rows, s => do
    match ← matchRow slots row [] with
    | none => walk next slots rows s
    | some bound =>
      let step ← next s
      modify (Assignment.forget bound)
      match step with
      | .done s => return .done s
      | .yield s => walk next slots rows s

/-- Offers the assignment to `visit` whenever it fits a row of every operand, until `visit` is
done. -/
def search (visit : Assignment → σ → ForInStep σ) :
    List (Bound Reading) → σ → StateM Assignment (ForInStep σ)
  | [], s => return visit (← get) s
  | operand :: operands, s => do
    match (← get).row? operand.slots with
    | some row => if operand.relation.lists row then search visit operands s else return .yield s
    | none => walk (search visit operands) operand.slots operand.relation.extension.rows s

/-! ## The assignment comes back -/

variable {α β : Assignment} {slots : Slots} {row : Tuple} {bound : List Var} {v : Var} {x : Atom}

theorem forget_nil (α : Assignment) : α.forget [] = α := by simp [Assignment.forget]

theorem ne_of_get?_eq_none (h : α.get? v = none) {entry : Var × Atom} (hm : entry ∈ α) :
    entry.1 ≠ v := by
  rintro rfl
  have hlookup := List.lookup_eq_none_iff.mp h entry hm
  simp at hlookup

/-- Taking out a value that was just written leaves what was there before. -/
theorem forget_assign (h : α.get? v = none) :
    (α.assign v x).forget (bound ++ [v]) = α.forget bound := by
  rw [Assignment.forget, Assignment.assign, List.filter_cons_of_neg (by simp), Assignment.forget]
  refine List.filter_congr fun entry hm => ?_
  have hne := ne_of_get?_eq_none h hm
  simp [hne]

theorem run_matchRow_var {y : Atom} :
    (matchRow (.var v :: slots) (y :: row) bound).run α =
      match α.get? v with
      | some x =>
        if x = y then (matchRow slots row bound).run α else (none, α.forget bound)
      | none => (matchRow slots row (bound ++ [v])).run (α.assign v y) := by
  rw [matchRow, StateT.run_bind, StateT.run_get]
  cases h : α.get? v with
  | none => simp [h]
  | some x =>
    by_cases hx : x = y
    · simp [h, hx]
    · simp [h, hx]
      rfl

/-- A row that does not match leaves no value behind, however far it came. -/
theorem run_matchRow_of_none (h : α.unify slots row = none) :
    (matchRow slots row bound).run α = (none, α.forget bound) := by
  fun_induction Assignment.unify α slots row generalizing bound with
  | case1 α slots y row ih => exact ih h
  | case2 α slots x row ih =>
    rw [matchRow, if_pos rfl]
    exact ih h
  | case3 α x slots row y hne =>
    rw [matchRow, if_neg hne]
    rfl
  | case4 α v slots x row hv ih =>
    simp only [run_matchRow_var, hv, if_true]
    exact ih h
  | case5 α v slots y row x hv hne => simp only [run_matchRow_var, hv, if_neg hne]
  | case6 α v slots y row hv ih => simp only [run_matchRow_var, hv, ih h, forget_assign hv]
  | case7 | case8 => cases h

/-- A row that matches gives its values, and taking them out leaves what was there before. -/
theorem run_matchRow_of_some (h : α.unify slots row = some β) (bound : List Var) :
    ∃ bound', (matchRow slots row bound).run α = (some bound', β) ∧
      β.forget bound' = α.forget bound := by
  fun_induction Assignment.unify α slots row generalizing bound with
  | case1 α slots y row ih => exact ih h bound
  | case2 α slots x row ih =>
    rw [matchRow, if_pos rfl]
    exact ih h bound
  | case3 | case5 => cases h
  | case4 α v slots x row hv ih =>
    simp only [run_matchRow_var, hv, if_true]
    exact ih h bound
  | case6 α v slots y row hv ih =>
    simp only [run_matchRow_var, hv]
    rw [← forget_assign hv]
    exact ih h _
  | case7 α row =>
    obtain rfl : α = β := Option.some.inj h
    exact ⟨bound, by rw [matchRow]; rfl, rfl⟩
  | case8 slots α hne =>
    obtain rfl : α = β := Option.some.inj h
    refine ⟨bound, ?_, rfl⟩
    cases slots with
    | nil => exact absurd rfl hne
    | cons b slots =>
      rw [matchRow]
      · rfl
      · simp

theorem run_walk_cons {next : σ → StateM Assignment (ForInStep σ)} {rows : List Tuple} {s : σ} :
    (walk next slots (row :: rows) s).run α =
      match (matchRow slots row []).run α with
      | (none, β) => (walk next slots rows s).run β
      | (some bound, β) =>
        match (next s).run β with
        | (.done s, γ) => (.done s, γ.forget bound)
        | (.yield s, γ) => (walk next slots rows s).run (γ.forget bound) := by
  rw [walk, StateT.run_bind]
  rcases (matchRow slots row []).run α with ⟨_ | bound, β⟩
  · rfl
  · refine (StateT.run_bind (next s) _ β).trans ?_
    dsimp only
    rcases (next s).run β with ⟨_ | _, γ⟩ <;> rfl

/-- Each row leaves the assignment as it was, and what goes on from it sees the extension that the
row makes. -/
theorem run_walk {next : σ → StateM Assignment (ForInStep σ)}
    {visit : Assignment → σ → ForInStep σ}
    (hnext : ∀ β s, (next s).run β = (visit β s, β)) (slots : Slots) (α : Assignment)
    (rows : List Tuple) (s : σ) :
    (walk next slots rows s).run α = (Reading.walk visit slots α rows s, α) := by
  induction rows generalizing s with
  | nil => rfl
  | cons row rows ih =>
    rw [run_walk_cons, Reading.walk]
    cases h : α.unify slots row with
    | none =>
      rw [run_matchRow_of_none h, forget_nil]
      exact ih s
    | some β =>
      obtain ⟨bound, hrun, hforget⟩ := run_matchRow_of_some h []
      rw [forget_nil] at hforget
      simp only [hrun, hnext]
      cases visit β s with
      | done s => simp only [hforget]
      | yield s => simp only [hforget, ih]

/-- The search on one assignment gives what the search gives, and the assignment is what it was. -/
theorem run_search (visit : Assignment → σ → ForInStep σ) (operands : List (Bound Reading))
    (α : Assignment) (s : σ) :
    (search visit operands s).run α = (Reading.search visit operands α s, α) := by
  induction operands generalizing α s with
  | nil => rfl
  | cons operand operands ih =>
    rw [search, Reading.search, StateT.run_bind, StateT.run_get]
    simp only [pure_bind]
    cases α.row? operand.slots with
    | none => exact run_walk ih _ _ _ _
    | some row =>
      dsimp only
      by_cases hlists : operand.relation.lists row = true
      · rw [if_pos hlists, if_pos hlists]
        exact ih α s
      · rw [if_neg hlists, if_neg hlists]
        rfl

end Backtracking

/-! ## What a visitor sees -/

namespace Reading

variable {σ : Type}

/-- Whether a visitor goes on after each of the listed assignments, and so comes from one state to
another. -/
inductive Continues (visit : Assignment → σ → ForInStep σ) : List Assignment → σ → σ → Prop where
  | nil (s : σ) : Continues visit [] s s
  | cons {β : Assignment} {βs : List Assignment} {s s' s'' : σ} (hβ : visit β s = .yield s')
    (hβs : Continues visit βs s' s'') : Continues visit (β :: βs) s s''

/-- Whether a visitor that meets the listed assignments in turn, and no more of them once it is done,
ends as stated. -/
inductive Sees (visit : Assignment → σ → ForInStep σ) : List Assignment → σ → ForInStep σ → Prop where
  | all {βs : List Assignment} {s s' : σ} (hβs : Continues visit βs s s') :
    Sees visit βs s (.yield s')
  | stops {before : List Assignment} {β : Assignment} {s s' s'' : σ}
    (hbefore : Continues visit before s s') (hβ : visit β s' = .done s'')
    (after : List Assignment) : Sees visit (before ++ β :: after) s (.done s'')

theorem sees_offer (visit : Assignment → σ → ForInStep σ) (βs : List Assignment) (s : σ) :
    Sees visit βs s (offer visit βs s) := by
  induction βs generalizing s with
  | nil => exact .all (.nil s)
  | cons β βs ih =>
    rw [offer]
    cases hβ : visit β s with
    | done s' => exact .stops (.nil s) hβ βs
    | yield s' =>
      have hrest := ih s'
      dsimp only
      generalize offer visit βs s' = step at hrest ⊢
      cases hrest with
      | all hβs => exact .all (.cons hβ hβs)
      | stops hbefore hstop after => exact .stops (.cons hβ hbefore) hstop after

/-- Puts an assignment at the end of a list, and always goes on. -/
def record (β : Assignment) (seen : List Assignment) : ForInStep (List Assignment) :=
  .yield (seen ++ [β])

/-- Whether a search from an assignment meets the listed assignments, in their order. -/
structure Visits (operands : List (Bound Reading)) (α : Assignment) (visited : List Assignment) :
    Prop where
  /-- A visitor that always goes on is given all of them. -/
  recorded : search record operands α [] = .yield visited
  /-- Any visitor is given those up to the first at which it is done, and the search says whether
  there is one. -/
  sees : ∀ {σ : Type} (visit : Assignment → σ → ForInStep σ) (s : σ),
    Sees visit visited s (search visit operands α s)
  /-- The search on one assignment comes to the same, and the assignment is what it was. -/
  restores : ∀ {σ : Type} (visit : Assignment → σ → ForInStep σ) (s : σ),
    (Backtracking.search visit operands s).run α = (search visit operands α s, α)

/-- The search meets the solutions. -/
theorem visits_solutions (operands : List (Bound Reading)) (α : Assignment) :
    Visits operands α (solutions operands α) := by
  have hfold : ∀ (αs seen : List Assignment),
      αs.foldl (fun seen β => seen ++ [β]) seen = seen ++ αs := by
    intro αs
    induction αs with
    | nil => simp
    | cons α αs ih => simp [ih]
  refine ⟨?_, fun visit s => ?_, fun visit s => Backtracking.run_search visit operands α s⟩
  · rw [search_eq_offer]
    exact (offer_yield _ _ _).trans (congrArg _ (hfold _ []))
  · rw [search_eq_offer]
    exact sees_offer visit _ s

end Reading

namespace Store

variable {s : Store} {operands : List (Bound Base)}

/-- Whether the kept choices and the assignments that come of them are those of a loop over the
stored rows of each operand inside that over the rows of the operand before it. -/
structure NestedLoop (s : Store) (operands : List (Bound Base)) (α : Assignment)
    (kept : List (List Tuple)) (visited : List Assignment) : Prop where
  /-- A choice takes one row of each operand, and is kept if it agrees with the assignment. -/
  kept_iff : ∀ c, c ∈ kept ↔
    List.Forall₂ (fun o row => row ∈ (s.extension o.relation).rows) operands c ∧
      α.Agrees (held operands c)
  /-- The choices are kept in the order of their rows, none of them twice. -/
  order : kept.Pairwise (Precedes (operands.map fun o => (s.extension o.relation).rows))
  /-- Each choice extends the assignment to the variables of its slots, and to no others. -/
  extends_by : List.Forall₂
    (fun c β => ∀ v, β.get? v = (α.get? v).or ((held operands c).lookup (.var v))) kept visited

theorem NestedLoop.nodup {α : Assignment} {kept : List (List Tuple)} {visited : List Assignment}
    (h : s.NestedLoop operands α kept visited) : kept.Nodup :=
  h.order.imp Precedes.ne

/-- Over stored relations the search is a nested loop that keeps the choices that agree with the
assignment: it meets what comes of these, one after another. -/
theorem search_visits (hs : s.Reachable) (ho : ∀ o ∈ operands, s.BuiltView o.view)
    (α : Assignment) :
    ∃ kept visited, s.NestedLoop operands α kept visited ∧
      Reading.Visits (s.readAll (operands.map Bound.view)) α visited := by
  refine ⟨s.combinations operands α, _, ⟨fun c => mem_combinations,
    pairwise_combinations hs.valid operands α, ?_⟩, Reading.visits_solutions _ α⟩
  rw [readAll_eq_map]
  exact forall₂_solutions hs.valid ho α

theorem search_visits_kinshipGrandmothers :
    (∀ o ∈ kinshipGrandmothers, Session.kinship.store.BuiltView o.view) ∧
      ∃ kept visited,
        Session.kinship.store.NestedLoop kinshipGrandmothers [(.named "B", .text "piotr")] kept
            visited ∧
          Reading.Visits (Session.kinship.store.readAll (kinshipGrandmothers.map Bound.view))
            [(.named "B", .text "piotr")] visited := by
  have hbuilt : ∀ o ∈ kinshipGrandmothers, Session.kinship.store.BuiltView o.view := by
    simp only [kinshipGrandmothers, List.forall_mem_cons]
    have hparent := Built.base Session.holds_kinshipParent
    exact ⟨⟨hparent, rfl⟩, ⟨hparent, rfl⟩, ⟨.base Session.holds_kinshipFemale, rfl⟩, by simp⟩
  exact ⟨hbuilt, search_visits Session.reachable_kinship hbuilt _⟩

-- the second operand is walked for its wildcard, the third is looked up
example :
    Session.kinship.store.combinations kinshipGrandmothers [] =
      [[[.text "teresa", .text "piotr"], [.text "piotr", .text "ania"], [.text "teresa"]]] := by
  decide

end Store

end RelationAlgebra
