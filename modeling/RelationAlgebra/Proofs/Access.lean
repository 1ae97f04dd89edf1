import RelationAlgebra.Property.Inducer
import RelationAlgebra.Proofs.Insertion

/-!
# Slots that are read

To look at a slot that a row does not have is a fault, and so is to push a tuple whose length is not
that of the rows. Here the operations on extensions are written with every such step, as
computations that give nothing where there is a fault. Where the rows have the arity of the
extension (`Extension.Valid`) there is none: the closure search and the check of antisymmetry read
rows of binary extensions only (`Extension.reachable?_eq`, `Extension.isAntisymmetric?_eq`). The
guards read tuples before their length is known to be right, but no others than pairs
(`Schema.insertAll?_yields`).
-/

namespace RelationAlgebra

/-! ## Faults -/

/-- A computation that may fail, and gives nothing at all after a fault. -/
abbrev Hazardous (ε : Type) : Type → Type := ExceptT ε Option

namespace Hazardous

variable {ε ε' α β : Type}

/-- Whether a computation ends without a fault, as another one does. -/
def Yields (x : Hazardous ε α) (y : Except ε α) : Prop := x.run = some y

theorem yields_lift (y : Except ε α) : Yields (liftM y) y := rfl

/-- A step that gives something is no fault. -/
theorem yields_access {x : Option α} {a : α} (h : x = some a) {f : α → Hazardous ε β}
    {y : Except ε β} (hf : (f a).Yields y) : Yields (liftM x >>= f) y := by
  rw [h]
  exact hf

/-- Steps that yield make a sequence that yields. -/
theorem Yields.bind {x : Hazardous ε α} {y : Except ε α} (h : x.Yields y)
    {f : α → Hazardous ε β} {g : α → Except ε β} (hf : ∀ a, y = .ok a → (f a).Yields (g a)) :
    Yields (x >>= f) (y >>= g) := by
  rw [Yields, ExceptT.run_bind, h]
  cases y with
  | error e => rfl
  | ok a => exact hf a rfl

theorem Yields.adapt {x : Hazardous ε α} {y : Except ε α} (h : x.Yields y) (f : ε → ε') :
    Yields (x.adapt f) (y.mapError f) := by
  rw [Yields, ExceptT.run_adapt, h]
  rfl

/-- A loop yields if each of its rounds does. -/
theorem Yields.foldlM {f : β → α → Hazardous ε β} {g : β → α → Except ε β}
    (h : ∀ b a, (f b a).Yields (g b a)) (as : List α) (b : β) :
    Yields (as.foldlM f b) (as.foldlM g b) := by
  induction as generalizing b with
  | nil => rfl
  | cons a as ih => exact (h b a).bind fun b _ => ih b

end Hazardous

open Hazardous

/-! ## Loops without a fault -/

section Loops

variable {α β : Type} {as : List α}

/-- A loop over a list whose steps all succeed gives what the total steps give. -/
theorem mapM_eq_some_map {f : α → Option β} {g : α → β} (h : ∀ a ∈ as, f a = some (g a)) :
    as.mapM f = some (as.map g) := by
  induction as with
  | nil => rfl
  | cons a as ih =>
    rw [List.forall_mem_cons] at h
    rw [List.mapM_cons, h.1, ih h.2]
    rfl

theorem allM_eq_some_all {p : α → Option Bool} {q : α → Bool} (h : ∀ a ∈ as, p a = some (q a)) :
    as.allM p = some (as.all q) := by
  induction as with
  | nil => rfl
  | cons a as ih =>
    rw [List.forall_mem_cons] at h
    rw [List.allM, h.1, List.all_cons]
    cases q a with
    | true => exact ih h.2
    | false => rfl

theorem anyM_eq_some_any {p : α → Option Bool} {q : α → Bool} (h : ∀ a ∈ as, p a = some (q a)) :
    as.anyM p = some (as.any q) := by
  induction as with
  | nil => rfl
  | cons a as ih =>
    rw [List.forall_mem_cons] at h
    rw [List.anyM, h.1, List.any_cons]
    cases q a with
    | true => rfl
    | false => exact ih h.2

theorem filterM_some (p : α → Bool) (as : List α) :
    as.filterM (fun a => some (p a)) = some (as.filter p) := by
  have haux : ∀ acc, as.filterAuxM (fun a => some (p a)) acc =
      some ((as.filter p).reverse ++ acc) := by
    induction as with
    | nil => exact fun acc => rfl
    | cons a as ih =>
      intro acc
      rw [List.filterAuxM, Option.bind_eq_bind, Option.bind_some, ih]
      cases h : p a <;> simp [h]
  rw [List.filterM, haux]
  simp

/-- A loop over what keeps an invariant, in which no round is a fault while the invariant holds. -/
theorem foldlM_eq_some_foldl {f : β → α → Option β} {g : β → α → β} {P : β → Prop} {b : β}
    (hb : P b) (h : ∀ a ∈ as, ∀ b, P b → f b a = some (g b a) ∧ P (g b a)) :
    as.foldlM f b = some (as.foldl g b) := by
  induction as generalizing b with
  | nil => rfl
  | cons a as ih =>
    rw [List.forall_mem_cons] at h
    obtain ⟨hround, hkept⟩ := h.1 b hb
    rw [List.foldlM_cons, hround]
    exact ih hkept h.2

end Loops

/-! ## Extensions -/

namespace Extension

variable {x : Extension} {t : Tuple} {a b goal : Atom}

/-- As `push`. A tuple of another length than the rows is a fault. -/
def push? (x : Extension) (t : Tuple) : Option Extension :=
  if t.length = x.arity then some (x.push t) else none

/-- As `pushAll`. -/
def pushAll? (x : Extension) (tuples : List Tuple) : Option Extension := tuples.foldlM push? x

/-- As `successors`. Every row that begins with `a` must have another slot. -/
def successors? (x : Extension) (a : Atom) : Option (List Atom) := (x.valuesAt 0 a).mapM (·[1]?)

/-- As `expand`. -/
def expand? (x : Extension) (f : Frontier) : Option Frontier :=
  match f.queue with
  | [] => some f
  | a :: queue => do return { f with queue }.visitAll (← x.successors? a)

/-- As `finds`. -/
def finds? (x : Extension) (goal : Atom) : (rounds : Nat) → Frontier → Option Bool
  | 0, _ => some false
  | rounds + 1, f =>
    match f.queue with
    | [] => some false
    | a :: _ => if a = goal then some true else do x.finds? goal rounds (← x.expand? f)

/-- As `reachable`. -/
def reachable? (x : Extension) (a b : Atom) : Option Bool :=
  if x.arity = 2 then do
    x.finds? b x.targets.length (Frontier.empty.visitAll (← x.successors? a))
  else some false

/-- As `isAntisymmetric`. -/
def isAntisymmetric? (x : Extension) : Option Bool :=
  if x.arity = 2 then
    x.rows.allM fun t => do
      let a ← t[0]?
      let b ← t[1]?
      return a == b || !x.contains [b, a]
  else some false

theorem push?_eq (h : t.length = x.arity) : x.push? t = some (x.push t) := if_pos h

/-- Pushing rows of the right length meets the assertion each time. -/
theorem pushAll?_eq {tuples : List Tuple} (h : ∀ t ∈ tuples, t.length = x.arity) :
    x.pushAll? tuples = some (x.pushAll tuples) :=
  foldlM_eq_some_foldl (P := fun y => y.arity = x.arity) rfl fun t ht y hy =>
    ⟨push?_eq ((h t ht).trans hy.symm), (arity_push y t).trans hy⟩

/-- Rows of two slots have both components that the search reads. -/
theorem successors?_eq (hx : ∀ t ∈ x.rows, t.length = 2) (a : Atom) :
    x.successors? a = some (x.successors a) := by
  have hsnd : ∀ t ∈ x.valuesAt 0 a, t[1]? = some (t[1]?.getD a) := by
    intro t ht
    obtain ⟨b, c, rfl⟩ := List.length_eq_two.mp (hx t (List.mem_of_mem_filter ht))
    rfl
  rw [successors?, mapM_eq_some_map hsnd, successors, ← List.filterMap_eq_map]
  exact congrArg some (List.filterMap_congr fun t ht => (hsnd t ht).symm)

theorem expand?_eq (hx : ∀ t ∈ x.rows, t.length = 2) (f : Frontier) :
    x.expand? f = some (x.expand f) := by
  unfold expand? expand
  cases f.queue with
  | nil => rfl
  | cons a queue =>
    dsimp only
    rw [successors?_eq hx]
    rfl

/-- No round reads a slot that is not there, however many rounds there are. -/
theorem finds?_eq (hx : ∀ t ∈ x.rows, t.length = 2) (goal : Atom) (rounds : Nat) (f : Frontier) :
    x.finds? goal rounds f = some (x.finds goal rounds f) := by
  induction rounds generalizing f with
  | zero => rfl
  | succ rounds ih =>
    rw [finds?, finds]
    cases f.queue with
    | nil => rfl
    | cons a queue =>
      dsimp only
      by_cases ha : a = goal
      · simp [ha]
      · rw [if_neg ha, expand?_eq hx, beq_false_of_ne ha]
        exact ih _

/-- The search reads components of rows only, in every round. -/
theorem reachable?_eq (hx : x.Valid) (a b : Atom) : x.reachable? a b = some (x.reachable a b) := by
  unfold reachable? reachable
  by_cases harity : x.arity = 2
  · have hrows := hx.length_two harity
    rw [if_pos harity, successors?_eq hrows, beq_iff_eq.mpr harity, Bool.true_and]
    exact finds?_eq hrows _ _ _
  · rw [if_neg harity, beq_false_of_ne harity]
    rfl

/-- Only a binary extension is asked for components, and its rows have two. -/
theorem isAntisymmetric?_eq (hx : x.Valid) : x.isAntisymmetric? = some x.isAntisymmetric := by
  unfold isAntisymmetric? isAntisymmetric
  by_cases harity : x.arity = 2
  · rw [if_pos harity, beq_iff_eq.mpr harity, Bool.true_and]
    refine allM_eq_some_all fun t ht => ?_
    obtain ⟨a, b, rfl⟩ := List.length_eq_two.mp (hx.length_two harity t ht)
    rfl
  · rw [if_neg harity, beq_false_of_ne harity]
    rfl

example : isAntisymmetric? ⟨2, [[.text "ania"]]⟩ = none := by decide

end Extension

/-! ## Inducers -/

/-- As `Inducer.holds`. -/
def Inducer.holds? (x : Extension) (a b : Atom) : Inducer → Option Bool
  | reflexive => some (a == b)
  | symmetric => some (x.contains [b, a])
  | transitive => x.reachable? a b

/-- As `PropertySet.induces`. -/
def PropertySet.induces? (ps : PropertySet) (a b : Atom) (x : Extension) : Option Bool :=
  ps.inducers.anyM fun r => r.holds? x a b

theorem Inducer.holds?_eq {x : Extension} (hx : x.Valid) (rule : Inducer) (a b : Atom) :
    rule.holds? x a b = some (rule.holds x a b) := by
  cases rule with
  | reflexive => rfl
  | symmetric => rfl
  | transitive => exact Extension.reachable?_eq hx a b

/-- Rules read the components of rows of a binary extension only. -/
theorem PropertySet.induces?_eq {x : Extension} (hx : x.Valid) (ps : PropertySet) (a b : Atom) :
    ps.induces? a b x = some (ps.induces a b x) :=
  anyM_eq_some_any fun rule _ => rule.holds?_eq hx a b

/-! ## Insertion -/

namespace Schema

/-- As `insert`. The guards look at both slots of a pair. -/
def insert? (schema : Schema) (x : Extension) (t : Tuple) : Hazardous RelationError Extension := do
  if t.length = 2 ∧ ¬ schema.properties.isEmpty then
    let a ← (t[0]? : Option Atom)
    let b ← (t[1]? : Option Atom)
    schema.properties.checkInsert schema.name a b x
  x.insert schema.name t

/-- As `insertAll`. -/
def insertAll? (schema : Schema) (x : Extension) (tuples : List Tuple) :
    Hazardous RelationError Extension :=
  tuples.foldlM schema.insert? x

/-- Any tuple at all can be offered. -/
theorem insert?_yields (schema : Schema) (x : Extension) (t : Tuple) :
    (schema.insert? x t).Yields (schema.insert x t) := by
  have hinsert := yields_lift (x.insert schema.name t)
  rw [insert?, insert]
  by_cases hguarded : t.length = 2 ∧ ¬ schema.properties.isEmpty
  · rw [if_pos hguarded]
    obtain ⟨a, b, rfl⟩ := List.length_eq_two.mp hguarded.1
    exact (yields_lift _).bind fun _ _ => hinsert
  · -- a pair that no guard looks at meets a relation without guards
    have hfree : schema.checkGuards x t = .ok () := by
      unfold checkGuards
      split
      next a b =>
        have hempty : schema.properties = {} := by
          simpa [PropertySet.isEmpty] using hguarded
        rw [hempty]
        rfl
      next => rfl
    rw [if_neg hguarded, hfree]
    exact hinsert

theorem insertAll?_yields (schema : Schema) (x : Extension) (tuples : List Tuple) :
    (schema.insertAll? x tuples).Yields (schema.insertAll x tuples) :=
  .foldlM schema.insert?_yields tuples x

end Schema

end RelationAlgebra
