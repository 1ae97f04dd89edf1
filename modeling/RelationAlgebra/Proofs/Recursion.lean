import RelationAlgebra.Proofs.Frame

/-!
# Evaluation by calls

Relations answer by asking each other. To enumerate its rows, to look a row up or to test a tuple, a
derived relation asks its operands, and a complement asks the relations of a registry for their rows
besides. The registry goes on growing after the complement was made, so these relations are not part
of it. Here the calls are written out with a limit to their depth (`Store.evaluate`), and beyond the
limit there is no answer.

If the operands of relations have lower numbers than the relations themselves, and registries list
stored relations only, then no relation needs more depth than its number, and the answers are those
of its reading (`Store.evaluate_eq_total`). If a registry listed a complement that is taken in it,
no limit would do (`Store.rows_evaluate_of_listed`).
-/

namespace RelationAlgebra

/-! ## Answers within a limit -/

/-- What a relation answers if calls may nest to some depth only. -/
structure PartialReading where
  rows : Option Extension
  lists : Tuple → Option Bool
  accepts : Tuple → Option Bool

namespace PartialReading

variable {σ : Type}

/-- No answer to anything. -/
def silent : PartialReading where
  rows := none
  lists _ := none
  accepts _ := none

/-- Every answer that a reading gives. -/
def total (r : Reading) : PartialReading where
  rows := some r.extension
  lists t := some (r.lists t)
  accepts t := some (r.accepts t)

/-- As `Reading.walk`, with a visitor that may lack an answer. -/
def walk (visit : Assignment → σ → Option (ForInStep σ)) (slots : Slots) (α : Assignment) :
    List Tuple → σ → Option (ForInStep σ)
  | [], s => some (.yield s)
  | row :: rows, s =>
    match α.unify slots row with
    | none => walk visit slots α rows s
    | some β => do
      match ← visit β s with
      | .done s => return .done s
      | .yield s => walk visit slots α rows s

/-- As `Reading.search`, asking each operand when its turn comes. -/
def search (visit : Assignment → σ → ForInStep σ) :
    List (Bound PartialReading) → Assignment → σ → Option (ForInStep σ)
  | [], α, s => some (visit α s)
  | operand :: operands, α, s =>
    match α.row? operand.slots with
    | some row => do
      if ← operand.relation.lists row then search visit operands α s else return .yield s
    | none => do
      walk (search visit operands) operand.slots α (← operand.relation.rows).rows s

/-- Whether some assignment that extends `α` fits a row of every operand. -/
def satisfiable (operands : List (Bound PartialReading)) (α : Assignment) : Option Bool :=
  (search (fun _ _ => .done true) operands α false).map ForInStep.value

/-- As `Reading.derived`. -/
def derived (output : List Var) (rows : Option Extension)
    (witnessed : Assignment → Option Bool) : PartialReading :=
  let lists (t : Tuple) :=
    if t.length = output.length then witnessed (.ofOutput output t) else some false
  { rows, lists, accepts := lists }

/-- As `Reading.join`. -/
def join (output : List Var) (operands : List (Bound PartialReading)) : PartialReading :=
  derived output
    ((search (fun α x => .yield (Reading.emit output x α)) operands [] (.empty output.length)).map
      ForInStep.value)
    (satisfiable operands)

/-- As `Reading.activeDomain`. -/
def activeDomain (operands : List (Bound PartialReading)) : Option (List Atom) := do
  let atoms ← operands.mapM fun operand => operand.relation.rows.map Extension.atoms
  return atoms.flatten.eraseDups

/-- As `Reading.emitOperand`. -/
def emitOperand (output : List Var) (domain : List Atom) (x : Extension)
    (operand : Bound PartialReading) : Option Extension :=
  let mentioned := operand.slots.vars
  let missing := output.filter fun v => !mentioned.contains v
  let emitAll (α : Assignment) (x : Extension) :=
    (Assignment.completions domain missing α).foldl (Reading.emit output) x
  (search (fun α x => .yield (emitAll α x)) [operand] [] x).map ForInStep.value

/-- As `Reading.union`. -/
def union (output : List Var) (operands : List (Bound PartialReading)) : PartialReading :=
  derived output
    (do operands.foldlM (emitOperand output (← activeDomain operands)) (.empty output.length))
    (fun α => operands.anyM fun operand => satisfiable [operand] α)

/-- Whether an operand rejects a row. -/
def rejects (operand : Bound PartialReading) (row : Tuple) : Option Bool :=
  (operand.relation.accepts row).map not

/-- The extension with the output tuple of a row pushed, if the row matches and the operand rejects
it. -/
def emitRejected (output : List Var) (operand : Bound PartialReading) (x : Extension)
    (row : Tuple) : Option Extension :=
  match Assignment.unify [] operand.slots row with
  | some α => do if ← rejects operand row then return Reading.emit output x α else return x
  | none => return x

/-- As `Reading.complement`. The operand is asked about rows that match, and about no others. -/
def complement (output : List Var) (ambient : Option Extension) (operand : Bound PartialReading) :
    PartialReading :=
  derived output (do (← ambient).rows.foldlM (emitRejected output operand) (.empty output.length))
    (fun α => do
      let ambient ← ambient
      match α.row? operand.slots with
      | some row => if ambient.contains row then rejects operand row else return false
      | none => ambient.rows.anyM fun row =>
          if (α.unify operand.slots row).isSome then rejects operand row else return false)

/-- The rows that a complement is taken in, asked of the relations of a registry: all of the arity
of the operand, but for the operand itself. -/
def ambient (ask : Relation → PartialReading) (listing : List Relation) (operand : Relation) :
    Option Extension :=
  ((listing.filter fun r => r.arity = operand.arity).filter fun r => !r.same operand).foldlM
    (fun x r => do return x.pushAll (← (ask r).rows).rows) (.empty operand.arity)

/-! ## Answers that do not lack -/

/-- The answers of the reading of an operand. -/
def totalBound (operand : Bound Reading) : Bound PartialReading :=
  ⟨total operand.relation, operand.slots⟩

variable {operand : Bound Reading} {operands : List (Bound Reading)} {α : Assignment}

theorem walk_some (visit : Assignment → σ → ForInStep σ) (slots : Slots) (α : Assignment)
    (rows : List Tuple) (s : σ) :
    walk (fun α s => some (visit α s)) slots α rows s =
      some (Reading.walk visit slots α rows s) := by
  induction rows generalizing s with
  | nil => rfl
  | cons row rows ih =>
    rw [walk, Reading.walk]
    cases α.unify slots row with
    | none => exact ih s
    | some β =>
      simp only [Option.bind_eq_bind, Option.bind_some]
      cases visit β s with
      | done s => rfl
      | yield s => exact ih s

/-- A search whose operands lack no answer goes through, with the result it has for readings. -/
theorem search_total (visit : Assignment → σ → ForInStep σ) (operands : List (Bound Reading))
    (α : Assignment) (s : σ) :
    search visit (operands.map totalBound) α s = some (Reading.search visit operands α s) := by
  induction operands generalizing α s with
  | nil => rfl
  | cons operand operands ih =>
    have hvisit : search visit (operands.map totalBound) =
        fun α s => some (Reading.search visit operands α s) :=
      funext fun α => funext (ih α)
    rw [List.map_cons, search, Reading.search, hvisit]
    have hslots : (totalBound operand).slots = operand.slots := rfl
    rw [hslots]
    cases α.row? operand.slots with
    | none => exact walk_some _ _ _ _ _
    | some row =>
      simp only [totalBound, total, Option.bind_eq_bind, Option.bind_some]
      by_cases hlists : operand.relation.lists row = true
      · rw [if_pos hlists, if_pos hlists]
      · rw [if_neg hlists, if_neg hlists]
        rfl

/-- A test for a solution has an answer if the operands have theirs. -/
theorem satisfiable_total (operands : List (Bound Reading)) (α : Assignment) :
    satisfiable (operands.map totalBound) α = some (Reading.satisfiable operands α) := by
  rw [satisfiable, search_total]
  rfl

theorem derived_total {output : List Var} {rows : Thunk Extension} {witnessed : Assignment → Bool}
    {rows' : Option Extension} {witnessed' : Assignment → Option Bool}
    (hrows : rows' = some rows.get) (hwitnessed : ∀ α, witnessed' α = some (witnessed α)) :
    derived output rows' witnessed' = total (.derived output rows witnessed) := by
  have hlists : (fun t : Tuple =>
      if t.length = output.length then witnessed' (.ofOutput output t) else some false) =
      fun t => some ((Reading.derived output rows witnessed).lists t) := by
    funext t
    by_cases ht : t.length = output.length <;> simp [Reading.derived, ht, hwitnessed]
  rw [derived, hlists, hrows]
  rfl

/-- A join of operands that lack no answer lacks none. -/
theorem join_total (output : List Var) (operands : List (Bound Reading)) :
    join output (operands.map totalBound) = total (.join output operands) := by
  refine derived_total ?_ (satisfiable_total operands)
  rw [search_total]
  rfl

/-- The active domain is known if the rows of all operands are. -/
theorem activeDomain_total (operands : List (Bound Reading)) :
    activeDomain (operands.map totalBound) = some (Reading.activeDomain operands) := by
  have hatoms : (operands.map totalBound).mapM (fun o => o.relation.rows.map Extension.atoms) =
      some (operands.map fun o => o.relation.extension.atoms) := by
    rw [List.mapM_map]
    exact List.mapM_pure
  rw [activeDomain, hatoms, Reading.activeDomain, List.flatMap]
  rfl

theorem emitOperand_total (output : List Var) (domain : List Atom) (x : Extension)
    (operand : Bound Reading) :
    emitOperand output domain x (totalBound operand) =
      some (Reading.emitOperand output domain x operand) :=
  congrArg (Option.map ForInStep.value) (search_total _ [operand] [] x)

theorem anyM_satisfiable_total (operands : List (Bound Reading)) (α : Assignment) :
    (operands.map totalBound).anyM (fun o => satisfiable [o] α) =
      some (operands.any fun o => Reading.satisfiable [o] α) := by
  induction operands with
  | nil => rfl
  | cons operand operands ih =>
    have hone : satisfiable [totalBound operand] α = some (Reading.satisfiable [operand] α) :=
      satisfiable_total [operand] α
    rw [List.map_cons, List.anyM, hone, List.any_cons]
    cases Reading.satisfiable [operand] α with
    | true => rfl
    | false => exact ih

/-- A union of operands that lack no answer lacks none. -/
theorem union_total (output : List Var) (operands : List (Bound Reading)) :
    union output (operands.map totalBound) = total (.union output operands) := by
  refine derived_total ?_ (anyM_satisfiable_total operands)
  rw [activeDomain_total, Option.bind_eq_bind, Option.bind_some, List.foldlM_map]
  simp only [emitOperand_total]
  exact List.foldlM_pure

theorem rejects_total (operand : Bound Reading) (row : Tuple) :
    rejects (totalBound operand) row = some (!operand.relation.accepts row) := rfl

theorem emitRejected_total (output : List Var) (operand : Bound Reading) (x : Extension)
    (row : Tuple) :
    emitRejected output (totalBound operand) x row =
      some (Reading.round output operand x row) := by
  have hslots : (totalBound operand).slots = operand.slots := rfl
  rw [emitRejected, Reading.round, rejects_total, hslots]
  cases Assignment.unify [] operand.slots row with
  | none => rfl
  | some α => cases operand.relation.accepts row <;> rfl

/-- A complement lacks no answer if its operand lacks none and its universe is known. -/
theorem complement_total (output : List Var) (ambient : Extension) (operand : Bound Reading) :
    complement output (some ambient) (totalBound operand) =
      total (.complement output ambient operand) := by
  have hslots : (totalBound operand).slots = operand.slots := rfl
  rw [complement, Reading.complement]
  refine derived_total ?_ fun α => ?_
  · rw [Option.bind_eq_bind, Option.bind_some,
      funext fun x => funext (emitRejected_total output operand x)]
    exact List.foldlM_pure
  · simp only [rejects_total, hslots, Option.bind_eq_bind, Option.bind_some]
    cases α.row? operand.slots with
    | some row =>
      dsimp only
      cases ambient.contains row <;> rfl
    | none =>
      have hrow : ∀ row, (if (α.unify operand.slots row).isSome then
          some (!operand.relation.accepts row) else pure false) =
          some ((α.unify operand.slots row).isSome && !operand.relation.accepts row) := by
        intro row
        cases (α.unify operand.slots row).isSome <;> rfl
      simp only [hrow]
      exact List.anyM_pure

end PartialReading

/-! ## Evaluation within a limit -/

namespace Relation

variable {r q : Relation}

/-- Whether a relation is another one, or is built on it at any depth. -/
inductive Involves : Relation → Relation → Prop where
  | refl (r : Relation) : Involves r r
  | operand {r q : Relation} {v : View} (hv : v ∈ r.operands) (h : v.relation.Involves q) :
    Involves r q

/-- What is built on a relation is built on what that one is built on. -/
theorem Involves.trans {p : Relation} (hr : r.Involves q) (hq : q.Involves p) : r.Involves p := by
  induction hr with
  | refl => exact hq
  | operand hv _ ih => exact .operand hv (ih hq)

/-- Whether operands have lower numbers than what is built of them, at any depth. -/
def Ordered (r : Relation) : Prop := ∀ q, r.Involves q → ∀ v ∈ q.operands, v.relation.id < q.id

theorem Ordered.id_lt (h : r.Ordered) {v : View} (hv : v ∈ r.operands) : v.relation.id < r.id :=
  h r (.refl r) v hv

theorem Ordered.operand (h : r.Ordered) {v : View} (hv : v ∈ r.operands) : v.relation.Ordered :=
  fun q hq => h q (.operand hv hq)

/-- Order passes down to whatever a relation is built on. -/
theorem Ordered.involved (h : r.Ordered) (hq : r.Involves q) : q.Ordered := by
  induction hq with
  | refl => exact h
  | operand hv _ ih => exact ih (h.operand hv)

theorem ordered_base (b : Base) : (base b).Ordered := by
  intro q hq v hv
  cases hq with
  | refl => cases hv
  | operand hw => cases hw

end Relation

namespace Store

variable {s : Store} {listing : String → List Relation} {r : Relation} {n : Nat}

/-- What a relation answers if calls nest no deeper than a limit. A complement asks whatever
relations the registries list. -/
def evaluate (s : Store) (listing : String → List Relation) : Nat → Relation → PartialReading
  | 0, _ => .silent
  | _ + 1, .base b => .total (.stored b.properties (s.extension b))
  | n + 1, .union _ views =>
    .union (Bound.correspondence views)
      (views.map fun v => ⟨s.evaluate listing n v.relation, v.slots⟩)
  | n + 1, .intersection _ views =>
    .join (Bound.correspondence views)
      (views.map fun v => ⟨s.evaluate listing n v.relation, v.slots⟩)
  | n + 1, .complement _ v registry =>
    .complement (Bound.correspondence [v])
      (PartialReading.ambient (s.evaluate listing n) (listing registry) v.relation)
      ⟨s.evaluate listing n v.relation, v.slots⟩
  | n + 1, .composition _ first second =>
    .join Relation.compositionOutput ((Relation.compositionViews first second).map fun v =>
      ⟨s.evaluate listing n v.relation, v.slots⟩)
  | n + 1, .converse _ relation =>
    .join Relation.converseOutput ((Relation.converseViews relation).map fun v =>
      ⟨s.evaluate listing n v.relation, v.slots⟩)

/-- The relations that a registry lists. -/
def registered (s : Store) (registry : String) : List Relation := (s.registry registry).map .base

/-- Registries that list stored relations only are asked to the end. -/
theorem ambient_evaluate (h : 0 < n) (registry : String) (r : Relation) :
    PartialReading.ambient (s.evaluate s.registered n) (s.registered registry) r =
      some (s.ambient registry r.arity r.id) := by
  obtain ⟨n, rfl⟩ := Nat.exists_eq_succ_of_ne_zero (Nat.ne_of_gt h)
  have hfilter : ((s.registered registry).filter fun q => q.arity = r.arity).filter
      (fun q => !q.same r) =
      ((s.ofArity registry r.arity).filter fun b => b.id ≠ r.id).map .base := by
    have hid : ∀ b : Base, (!(Relation.base b).same r) = decide (b.id ≠ r.id) := by
      intro b
      have hbase : (Relation.base b).id = b.id := rfl
      rw [Relation.same, hbase]
      by_cases hb : b.id = r.id <;> simp [hb]
    rw [registered, List.filter_map, List.filter_map, ofArity]
    exact congrArg _ (List.filter_congr fun b _ => hid b)
  rw [PartialReading.ambient, hfilter, List.foldlM_map]
  exact List.foldlM_pure

/-- A loop with a turn that has no answer has none. -/
theorem foldlM_eq_none {ι κ : Type} {f : κ → ι → Option κ} {xs : List ι} {x : ι} (hx : x ∈ xs)
    (hf : ∀ y, f y x = none) (y : κ) : xs.foldlM f y = none := by
  induction xs generalizing y with
  | nil => cases hx
  | cons x' xs ih =>
    rw [List.foldlM_cons]
    rcases List.mem_cons.mp hx with rfl | hx
    · rw [hf]
      rfl
    · cases f y x' with
      | none => rfl
      | some z => exact ih hx z

/-- A complement that is listed where it is taken asks itself, and there is no end to it. -/
theorem rows_evaluate_of_listed {id : Nat} {v : View} {registry : String}
    (hlisted : .complement id v registry ∈ listing registry) (hid : id ≠ v.relation.id)
    (harity : (Relation.complement id v registry).arity = v.relation.arity) (n : Nat) :
    (s.evaluate listing n (.complement id v registry)).rows = none := by
  induction n with
  | zero => rfl
  | succ n ih =>
    have hsame : (!(Relation.complement id v registry).same v.relation) = true := by
      have hself : (Relation.complement id v registry).id = id := rfl
      rw [Relation.same, hself]
      simpa using hid
    have hambient : PartialReading.ambient (s.evaluate listing n) (listing registry) v.relation =
        none := by
      refine foldlM_eq_none (x := .complement id v registry) ?_ (fun x => ?_) _
      · exact List.mem_filter.mpr ⟨List.mem_filter.mpr ⟨hlisted, decide_eq_true harity⟩, hsame⟩
      · rw [ih]
        rfl
    rw [evaluate, hambient]
    rfl

/-- Where operands have lower numbers, no relation needs more depth than its number. -/
theorem evaluate_eq_total (hr : r.Ordered) (h : r.id < n) :
    s.evaluate s.registered n r = .total (s.read r) := by
  induction n generalizing r with
  | zero => exact absurd h (Nat.not_lt_zero _)
  | succ n ih =>
    -- the operands leave room for one more call
    have hoperands : r.operands.map (fun v => ⟨s.evaluate s.registered n v.relation, v.slots⟩) =
        (r.operands.map s.readBound).map PartialReading.totalBound := by
      rw [List.map_map]
      refine List.map_congr_left fun v hv => ?_
      have hid := Nat.lt_of_lt_of_le (hr.id_lt hv) (Nat.le_of_lt_succ h)
      rw [ih (hr.operand hv) hid, Function.comp_apply, readBound_eq]
      rfl
    cases r with
    | base b => rfl
    | union id views =>
      rw [read_union, ← PartialReading.union_total]
      exact congrArg _ hoperands
    | intersection id views =>
      rw [read_intersection, ← PartialReading.join_total]
      exact congrArg _ hoperands
    | complement id v registry =>
      have hv : v ∈ (Relation.complement id v registry).operands := List.mem_singleton_self v
      have hpos : 0 < n :=
        Nat.lt_of_le_of_lt (Nat.zero_le _)
          (Nat.lt_of_lt_of_le (hr.id_lt hv) (Nat.le_of_lt_succ h))
      rw [read_complement, ← PartialReading.complement_total, evaluate, ambient_evaluate hpos]
      exact congrArg _ (List.cons.inj hoperands).1
    | composition id first second =>
      rw [read_composition, ← PartialReading.join_total]
      exact congrArg _ hoperands
    | converse id relation =>
      rw [read_converse, ← PartialReading.join_total]
      exact congrArg _ hoperands

end Store

end RelationAlgebra
