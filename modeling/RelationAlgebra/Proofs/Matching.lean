import RelationAlgebra.Matching
import Mathlib.Data.List.Forall2

/-!
# Valuations and assignments

The declarative side of matching. A valuation gives every variable an atom, and a row fits bindings
under a valuation if every slot holds what its binding says. A finite assignment stands for the
valuations that extend it: matching a row narrows these to the ones under which the row fits,
completing an assignment narrows them to the ones with values in the domain.
-/

namespace RelationAlgebra

/-- An atom for every variable. -/
abbrev Valuation := Var → Atom

/-- Whether a slot may hold an atom: the value of its variable, its literal, or any atom. -/
def Binding.Holds (ν : Valuation) : Binding → Atom → Prop
  | var v, x => ν v = x
  | wildcard, _ => True
  | literal a, x => a = x

/-- Whether every slot may hold the atom that the row has there. -/
def Slots.Fits (slots : Slots) (ν : Valuation) (row : Tuple) : Prop :=
  List.Forall₂ (Binding.Holds ν) slots row

@[simp]
theorem Slots.fits_cons {b : Binding} {slots : Slots} {ν : Valuation} {x : Atom} {row : Tuple} :
    Slots.Fits (b :: slots) ν (x :: row) ↔ b.Holds ν x ∧ slots.Fits ν row := List.forall₂_cons

/-- Whether known values of variables settle what a slot holds. -/
def Binding.Settled (known : Var → Prop) : Binding → Prop
  | var v => known v
  | wildcard => False
  | literal _ => True

/-- Whether known values of variables settle what every slot holds. -/
def Slots.Settled (known : Var → Prop) (slots : Slots) : Prop := ∀ b ∈ slots, b.Settled known

theorem Slots.Settled.mono {known known' : Var → Prop} {slots : Slots} (h : slots.Settled known)
    (hknown : ∀ v, known v → known' v) : slots.Settled known' := by
  intro b hb
  have hs := h b hb
  cases b with
  | var v => exact hknown v hs
  | wildcard => exact hs
  | literal a => trivial

/-- The value of a variable that labels a slot stands in every row that fits. -/
theorem Slots.Fits.mem_of_var {slots : Slots} {ν : Valuation} {row : Tuple} {v : Var}
    (h : slots.Fits ν row) (hv : .var v ∈ slots) : ν v ∈ row := by
  induction h with
  | nil => simp at hv
  | cons hb _ ih =>
    rcases List.mem_cons.mp hv with rfl | hv
    · exact List.mem_cons.mpr (Or.inl hb)
    · exact List.mem_cons_of_mem _ (ih hv)

/-- Where every slot carries a variable, the row lists their atoms. -/
theorem Slots.fits_vars_iff {vs : List Var} {ν : Valuation} {row : Tuple} :
    Slots.Fits (vs.map .var) ν row ↔ row = vs.map ν := by
  rw [Slots.Fits, List.forall₂_map_left_iff, eq_comm, ← List.forall₂_eq_eq_eq (α := Atom),
    List.forall₂_map_left_iff]
  rfl

/-- Fitting depends on the variables of the slots alone. -/
theorem Slots.Fits.congr {slots : Slots} {ν μ : Valuation} {row : Tuple} (h : slots.Fits ν row)
    (heq : ∀ v, .var v ∈ slots → μ v = ν v) : slots.Fits μ row := by
  induction h with
  | nil => exact .nil
  | @cons b x slots row hb _ ih =>
    refine .cons ?_ (ih fun v hv => heq v (List.mem_cons_of_mem _ hv))
    cases b with
    | var v => exact (heq v List.mem_cons_self).trans hb
    | wildcard => trivial
    | literal a => exact hb

namespace Assignment

variable {α β γ : Assignment} {ν : Valuation} {slots : Slots} {row : Tuple} {output : List Var}
  {t : Tuple} {v w : Var} {x : Atom}

/-- Whether a variable has a value. -/
def Assigns (α : Assignment) (v : Var) : Prop := ∃ x, α.get? v = some x

/-- Whether a valuation extends an assignment. -/
def Within (α : Assignment) (ν : Valuation) : Prop := ∀ v x, α.get? v = some x → ν v = x

/-- A valuation that extends the assignment. -/
def valuation (α : Assignment) : Valuation := fun v => (α.get? v).getD (.bool false)

theorem within_valuation (α : Assignment) : α.Within α.valuation := by
  intro v x h
  simp [valuation, h]

theorem within_nil (ν : Valuation) : Within [] ν := by
  intro v x h
  cases h

theorem not_assigns_nil (v : Var) : ¬ Assigns [] v := by
  rintro ⟨x, h⟩
  cases h

/-! ## One more variable -/

theorem get?_assign : (α.assign v x).get? w = if w = v then some x else α.get? w := by
  by_cases h : w = v
  · simp [assign, get?, h]
  · have hb : (w == v) = false := by simpa using h
    simp [assign, get?, List.lookup_cons, h, hb]

theorem assigns_assign : (α.assign v x).Assigns w ↔ w = v ∨ α.Assigns w := by
  unfold Assigns
  rw [get?_assign]
  by_cases h : w = v <;> simp [h]

/-- A valuation extends an assignment with one more variable if it gives the variable its value. -/
theorem within_assign (hv : ¬ α.Assigns v) :
    (α.assign v x).Within ν ↔ ν v = x ∧ α.Within ν := by
  constructor
  · intro h
    refine ⟨h v x (by rw [get?_assign, if_pos rfl]), fun w y hw => h w y ?_⟩
    have hwv : w ≠ v := fun e => hv ⟨y, e ▸ hw⟩
    rw [get?_assign, if_neg hwv, hw]
  · rintro ⟨hx, h⟩ w y hw
    rw [get?_assign] at hw
    split at hw
    next e => rw [e, hx]; exact Option.some.inj hw
    next => exact h w y hw

theorem get?_eq_some_of_within (hα : α.Within ν) (hv : α.Assigns v) : α.get? v = some (ν v) := by
  obtain ⟨x, hx⟩ := hv
  rw [hx, hα v x hx]

/-! ## Matching a row -/

/-- Matching narrows the valuations of an assignment to those under which the row fits. -/
theorem within_of_unify (hlen : slots.length = row.length) (h : α.unify slots row = some β) :
    β.Within ν ↔ α.Within ν ∧ slots.Fits ν row := by
  induction slots generalizing α row with
  | nil =>
    cases row with
    | nil =>
      simp only [unify, Option.some.injEq] at h
      simp [h, Slots.Fits]
    | cons y row => simp at hlen
  | cons b slots ih =>
    cases row with
    | nil => simp at hlen
    | cons y row =>
      have hlen' : slots.length = row.length := by simpa using hlen
      rw [Slots.fits_cons]
      cases b with
      | wildcard =>
        rw [ih hlen' (by simpa [unify] using h)]
        simp [Binding.Holds]
      | literal a =>
        simp only [unify, Option.ite_none_right_eq_some] at h
        rw [ih hlen' h.2]
        simp [Binding.Holds, h.1]
      | var v =>
        simp only [unify] at h
        split at h
        next z hz =>
          simp only [Option.ite_none_right_eq_some] at h
          rw [ih hlen' h.2]
          refine and_congr_right fun hα => ?_
          have hν : ν v = y := (hα v z hz).trans h.1
          simp [Binding.Holds, hν]
        next hz =>
          have hv : ¬ α.Assigns v := by simp [Assigns, hz]
          rw [ih hlen' h, within_assign hv, and_comm (a := ν v = y), and_assoc]
          rfl

/-- A row that fits the slots under a valuation is matched by every assignment that the valuation
extends. -/
theorem exists_unify_of_fits (hα : α.Within ν) (h : slots.Fits ν row) :
    ∃ β, α.unify slots row = some β := by
  induction h generalizing α with
  | nil => exact ⟨α, by simp [unify]⟩
  | @cons b y slots row hb _ ih =>
    cases b with
    | wildcard => simpa [unify] using ih hα
    | literal a =>
      have ha : a = y := hb
      simpa [unify, ha] using ih hα
    | var v =>
      have hν : ν v = y := hb
      simp only [unify]
      split
      next z hz =>
        have hzy : z = y := (hα v z hz).symm.trans hν
        simpa [hzy] using ih hα
      next hz =>
        have hv : ¬ α.Assigns v := by simp [Assigns, hz]
        exact ih ((within_assign hv).mpr ⟨hν, hα⟩)

/-- A match assigns the variables of the slots besides those assigned before. -/
theorem assigns_of_unify (hlen : slots.length = row.length) (h : α.unify slots row = some β) :
    β.Assigns v ↔ α.Assigns v ∨ .var v ∈ slots := by
  induction slots generalizing α row with
  | nil =>
    have hαβ : α = β := by simpa [unify] using h
    simp [hαβ]
  | cons b slots ih =>
    cases row with
    | nil => simp at hlen
    | cons y row =>
      have hlen' : slots.length = row.length := by simpa using hlen
      rw [List.mem_cons]
      cases b with
      | wildcard =>
        rw [ih hlen' (by simpa [unify] using h)]
        simp
      | literal a =>
        simp only [unify, Option.ite_none_right_eq_some] at h
        rw [ih hlen' h.2]
        simp
      | var w =>
        simp only [unify] at h
        rw [Binding.var.injEq]
        split at h
        next z hz =>
          simp only [Option.ite_none_right_eq_some] at h
          rw [ih hlen' h.2]
          have hw : v = w → α.Assigns v := fun e => ⟨z, e ▸ hz⟩
          tauto
        next => rw [ih hlen' h, assigns_assign]; tauto

/-! ## Settled slots -/

theorem row?_cons (b : Binding) :
    α.row? (b :: slots) = (α.slot? b).bind fun x => (α.row? slots).map (x :: ·) := by
  simp only [row?, List.mapM_cons]
  cases α.slot? b with
  | none => rfl
  | some x => cases List.mapM α.slot? slots <;> rfl

theorem row?_cons_eq_some_iff {b : Binding} :
    α.row? (b :: slots) = some t ↔
      ∃ x row, α.slot? b = some x ∧ α.row? slots = some row ∧ t = x :: row := by
  simp only [row?_cons, Option.bind_eq_some_iff, Option.map_eq_some_iff]
  constructor
  · rintro ⟨x, hx, row, hrow, rfl⟩
    exact ⟨x, row, hx, hrow, rfl⟩
  · rintro ⟨x, row, hx, hrow, rfl⟩
    exact ⟨x, hx, row, hrow, rfl⟩

/-- Where all slots are settled, one row fits and no other. -/
theorem fits_iff_of_row? (hα : α.Within ν) (h : α.row? slots = some row) :
    slots.Fits ν t ↔ t = row := by
  induction slots generalizing row t with
  | nil =>
    have hrow : row = [] := by simpa [row?] using h.symm
    rw [hrow]
    exact List.forall₂_nil_left_iff
  | cons b slots ih =>
    obtain ⟨x, row, hx, hrow, rfl⟩ := row?_cons_eq_some_iff.mp h
    cases t with
    | nil => simp [Slots.Fits]
    | cons y t =>
      have hb : b.Holds ν y ↔ y = x := by
        cases b with
        | var v => rw [← hα v x hx]; exact eq_comm
        | wildcard => cases hx
        | literal a =>
          rw [← Option.some.inj hx]
          exact eq_comm
      rw [Slots.fits_cons, hb, ih hrow, List.cons.injEq]

theorem assigns_of_row? (h : α.row? slots = some row) (hv : .var v ∈ slots) : α.Assigns v := by
  induction slots generalizing row with
  | nil => simp at hv
  | cons b slots ih =>
    obtain ⟨x, row, hx, hrow, rfl⟩ := row?_cons_eq_some_iff.mp h
    rcases List.mem_cons.mp hv with rfl | hv
    · exact ⟨x, hx⟩
    · exact ih hrow hv

theorem exists_slot?_iff {b : Binding} : (∃ x, α.slot? b = some x) ↔ b.Settled α.Assigns := by
  cases b with
  | var v => exact Iff.rfl
  | wildcard => simp [slot?, Binding.Settled]
  | literal a => simp [slot?, Binding.Settled]

/-- There is one row to ask for just where the assigned variables settle all slots. -/
theorem exists_row?_iff : (∃ row, α.row? slots = some row) ↔ slots.Settled α.Assigns := by
  induction slots with
  | nil => simp [row?, Slots.Settled]
  | cons b slots ih =>
    rw [Slots.Settled, List.forall_mem_cons, ← exists_slot?_iff, ← Slots.Settled, ← ih]
    constructor
    · rintro ⟨_, h⟩
      obtain ⟨x, row, hx, hrow, rfl⟩ := row?_cons_eq_some_iff.mp h
      exact ⟨⟨x, hx⟩, row, hrow⟩
    · rintro ⟨⟨x, hx⟩, row, hrow⟩
      exact ⟨x :: row, row?_cons_eq_some_iff.mpr ⟨x, row, hx, hrow, rfl⟩⟩

/-! ## Output columns -/

theorem eq_map_of_project? (hα : α.Within ν) (h : α.project? output = some t) :
    t = output.map ν := by
  induction output generalizing t with
  | nil => simpa [project?] using h.symm
  | cons v output ih =>
    simp only [project?, List.mapM_cons, Option.bind_eq_bind, Option.bind_eq_some_iff] at h
    obtain ⟨x, hx, t', ht', h⟩ := h
    rw [← Option.some.inj h, ih ht', List.map_cons, hα v x hx]

/-- A projection succeeds when every output variable is assigned. -/
theorem project?_eq_some (hα : α.Within ν) (h : ∀ v ∈ output, α.Assigns v) :
    α.project? output = some (output.map ν) := by
  induction output with
  | nil => rfl
  | cons v output ih =>
    have ht : output.mapM α.get? = some (output.map ν) :=
      ih fun w hw => h w (List.mem_cons_of_mem _ hw)
    simp [project?, List.mapM_cons, ht, get?_eq_some_of_within hα (h v List.mem_cons_self)]

/-- An assignment that gives a tuple has a valuation whose image of the columns it is. -/
theorem exists_project?_iff (h : ∀ v ∈ output, α.Assigns v) :
    α.project? output = some t ↔ ∃ ν, α.Within ν ∧ t = output.map ν := by
  constructor
  · intro ht
    exact ⟨α.valuation, α.within_valuation, eq_map_of_project? α.within_valuation ht⟩
  · rintro ⟨ν, hα, rfl⟩
    exact project?_eq_some hα h

theorem assigns_ofOutput (hlen : t.length = output.length) :
    (ofOutput output t).Assigns v ↔ v ∈ output := by
  induction output generalizing t with
  | nil => simp [ofOutput, Assigns, get?]
  | cons w output ih =>
    cases t with
    | nil => simp at hlen
    | cons x t =>
      have hcons : ofOutput (w :: output) (x :: t) = (ofOutput output t).assign w x := rfl
      rw [hcons, assigns_assign, ih (by simpa using hlen), List.mem_cons]

/-- The valuations of the assignment for a tuple are those that give the tuple. -/
theorem within_ofOutput (hn : output.Nodup) (hlen : t.length = output.length) :
    (ofOutput output t).Within ν ↔ t = output.map ν := by
  induction output generalizing t with
  | nil =>
    have ht : t = [] := List.eq_nil_of_length_eq_zero hlen
    simp [ht, ofOutput, within_nil]
  | cons v output ih =>
    cases t with
    | nil => simp at hlen
    | cons x t =>
      rw [List.nodup_cons] at hn
      have hlen' : t.length = output.length := by simpa using hlen
      have hcons : ofOutput (v :: output) (x :: t) = (ofOutput output t).assign v x := rfl
      have hv : ¬ (ofOutput output t).Assigns v := by rw [assigns_ofOutput hlen']; exact hn.1
      rw [hcons, within_assign hv, ih hn.2 hlen', List.map_cons, List.cons.injEq, eq_comm]

/-! ## Completions -/

variable {domain : List Atom} {vs : List Var}

/-- A completion assigns the missing variables besides the others. -/
theorem assigns_of_mem_completions (h : γ ∈ completions domain vs α) :
    γ.Assigns v ↔ α.Assigns v ∨ v ∈ vs := by
  induction vs generalizing α with
  | nil => simp_all [completions]
  | cons w vs ih =>
    simp only [completions, List.mem_flatMap] at h
    obtain ⟨x, -, h⟩ := h
    rw [ih h, assigns_assign, List.mem_cons]
    tauto

/-- Completing narrows the valuations of an assignment to those with values in the domain. -/
theorem exists_completion_within_iff (hn : vs.Nodup) (hvs : ∀ v ∈ vs, ¬ α.Assigns v) :
    (∃ γ ∈ completions domain vs α, γ.Within ν) ↔ α.Within ν ∧ ∀ v ∈ vs, ν v ∈ domain := by
  induction vs generalizing α with
  | nil => simp [completions]
  | cons v vs ih =>
    rw [List.nodup_cons] at hn
    have hv : ¬ α.Assigns v := hvs v List.mem_cons_self
    have hrest : ∀ x, ∀ w ∈ vs, ¬ (α.assign v x).Assigns w := by
      intro x w hw
      rw [assigns_assign, not_or]
      exact ⟨fun e => hn.1 (e ▸ hw), hvs w (List.mem_cons_of_mem _ hw)⟩
    simp only [completions, List.mem_flatMap, List.forall_mem_cons]
    constructor
    · rintro ⟨γ, ⟨x, hx, hγ⟩, hν⟩
      obtain ⟨hα, hdom⟩ := (ih hn.2 (hrest x)).mp ⟨γ, hγ, hν⟩
      rw [within_assign hv] at hα
      exact ⟨hα.2, hα.1 ▸ hx, hdom⟩
    · rintro ⟨hα, hx, hdom⟩
      obtain ⟨γ, hγ, hν⟩ := (ih hn.2 (hrest (ν v))).mpr ⟨(within_assign hv).mpr ⟨rfl, hα⟩, hdom⟩
      exact ⟨γ, ⟨ν v, hx, hγ⟩, hν⟩

end Assignment

/-- The tuple that a row gives for the output variables, if it fits the slots. -/
def Slots.project? (slots : Slots) (output : List Var) (row : Tuple) : Option Tuple :=
  (Assignment.unify [] slots row).bind fun α => α.project? output

/-- A row gives the tuple of the valuations under which it fits. -/
theorem Slots.project?_eq_some_iff {slots : Slots} {output : List Var} {row t : Tuple}
    (hlen : slots.length = row.length) (hout : ∀ v ∈ output, .var v ∈ slots) :
    slots.project? output row = some t ↔
      ∃ ν : Valuation, slots.Fits ν row ∧ t = output.map ν := by
  rw [project?, Option.bind_eq_some_iff]
  constructor
  · rintro ⟨α, hα, ht⟩
    have hν := (Assignment.within_of_unify hlen hα).mp α.within_valuation
    exact ⟨_, hν.2, Assignment.eq_map_of_project? α.within_valuation ht⟩
  · rintro ⟨ν, hfit, rfl⟩
    obtain ⟨α, hα⟩ := Assignment.exists_unify_of_fits (Assignment.within_nil ν) hfit
    have hν : α.Within ν :=
      (Assignment.within_of_unify hlen hα).mpr ⟨Assignment.within_nil ν, hfit⟩
    refine ⟨α, hα, Assignment.project?_eq_some hν fun v hv => ?_⟩
    exact (Assignment.assigns_of_unify hlen hα).mpr (Or.inr (hout v hv))

/-- A tuple of the right length lists the atoms of its columns under some valuation. -/
theorem Tuple.exists_eq_map {columns : List Var} {t : Tuple} (hn : columns.Nodup)
    (hlen : t.length = columns.length) : ∃ ν : Valuation, t = columns.map ν :=
  ⟨_, (Assignment.within_ofOutput hn hlen).mp (Assignment.within_valuation _)⟩

end RelationAlgebra
