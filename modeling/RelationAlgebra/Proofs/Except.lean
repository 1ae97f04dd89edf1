/-!
# Computations that may fail

A sequence of steps in `Except` succeeds if every step does. These lemmas take a successful
computation apart into the results of its steps, and a loop that fails into the rounds before and
the first that fails (`foldlM_eq_error_iff`). Two computations are parallel (`Parallel`) if both
succeed, with results that correspond, or both fail; parallel steps make parallel computations.
-/

namespace RelationAlgebra

variable {ε ε' α β γ δ : Type}

/-- Two steps give a result when the first does and the second does from it. -/
theorem bind_eq_ok_iff {x : Except ε α} {f : α → Except ε β} {b : β} :
    x >>= f = .ok b ↔ ∃ a, x = .ok a ∧ f a = .ok b := by
  cases x <;> simp [bind, Except.bind]

/-- Two continuations that agree on what the first step gives give the same. -/
theorem bind_congr_ok {x : Except ε α} {f g : α → Except ε β} (h : ∀ a, x = .ok a → f a = g a) :
    x >>= f = x >>= g := by
  cases x with
  | error => rfl
  | ok a => exact h a rfl

/-- A sequence of steps fails as its first step fails. -/
theorem bind_eq_error {x : Except ε α} {f : α → Except ε β} {e : ε} (h : x = .error e) :
    x >>= f = .error e := by
  subst h
  rfl

/-- A sequence of steps fails as the rest fails after a first step that does not. -/
theorem bind_eq_error_of_ok {x : Except ε α} {f : α → Except ε β} {a : α} {e : ε} (hx : x = .ok a)
    (h : f a = .error e) : x >>= f = .error e := by
  subst hx
  exact h

theorem mapError_eq_ok_iff {x : Except ε α} {f : ε → ε'} {a : α} :
    x.mapError f = .ok a ↔ x = .ok a := by
  cases x with
  | error e =>
    constructor
    · intro h
      cases h
    · intro h
      cases h
  | ok b =>
    constructor
    · intro h
      exact congrArg _ (Except.ok.inj h)
    · intro h
      exact congrArg _ (Except.ok.inj h)

/-- Each result of a list of computations is the result of one of them. -/
theorem exists_of_mapM_eq_ok {f : α → Except ε β} {xs : List α} {ys : List β}
    (h : xs.mapM f = .ok ys) : ∀ y ∈ ys, ∃ x ∈ xs, f x = .ok y := by
  induction xs generalizing ys with
  | nil =>
    have hys : [] = ys := by simpa [pure, Except.pure] using h
    simp [← hys]
  | cons x xs ih =>
    rw [List.mapM_cons] at h
    obtain ⟨y, hy, h⟩ := bind_eq_ok_iff.mp h
    obtain ⟨ys', hys, h⟩ := bind_eq_ok_iff.mp h
    have hcons : y :: ys' = ys := by simpa [pure, Except.pure] using h
    rw [← hcons, List.forall_mem_cons]
    refine ⟨⟨x, List.mem_cons_self, hy⟩, fun z hz => ?_⟩
    obtain ⟨w, hw, hfw⟩ := ih hys z hz
    exact ⟨w, List.mem_cons_of_mem _ hw, hfw⟩

/-- What every successful round of a loop keeps holds after the loop. -/
theorem invariant_of_foldlM_eq_ok {f : β → α → Except ε β} {P : β → Prop} {xs : List α} {b b' : β}
    (hf : ∀ b a b', P b → f b a = .ok b' → P b') (hb : P b) (h : xs.foldlM f b = .ok b') :
    P b' := by
  induction xs generalizing b with
  | nil =>
    have hbb : b = b' := by simpa [pure, Except.pure] using h
    exact hbb ▸ hb
  | cons x xs ih =>
    rw [List.foldlM_cons] at h
    obtain ⟨c, hc, h⟩ := bind_eq_ok_iff.mp h
    exact ih (hf b x c hb hc) h

/-- A loop fails as its first round fails that does. -/
theorem foldlM_eq_error_iff {f : β → α → Except ε β} {xs : List α} {b : β} {e : ε} :
    xs.foldlM f b = .error e ↔
      ∃ before x after c, xs = before ++ x :: after ∧ before.foldlM f b = .ok c ∧
        f c x = .error e := by
  constructor
  · intro h
    induction xs generalizing b with
    | nil => cases h
    | cons x xs ih =>
      rw [List.foldlM_cons] at h
      cases hx : f b x with
      | error e' =>
        rw [hx] at h
        exact ⟨[], x, xs, b, rfl, rfl, hx.trans h⟩
      | ok c =>
        rw [hx] at h
        obtain ⟨before, y, after, d, rfl, hbefore, hy⟩ := ih h
        refine ⟨x :: before, y, after, d, rfl, ?_, hy⟩
        rw [List.foldlM_cons, hx]
        exact hbefore
  · rintro ⟨before, x, after, c, rfl, hbefore, hx⟩
    rw [List.foldlM_append, hbefore]
    show (x :: after).foldlM f c = .error e
    rw [List.foldlM_cons, hx]
    rfl

/-! ## Properties of results -/

/-- Whether all that a computation may give has a property. -/
def Ensures (P : α → Prop) (x : Except ε α) : Prop := ∀ a, x = .ok a → P a

theorem ensures_pure {P : α → Prop} {a : α} (h : P a) : Ensures P (pure a : Except ε α) :=
  fun _ hb => Except.ok.inj hb ▸ h

/-- A sequence of steps ensures what its last step ensures after every result of the first. -/
theorem ensures_bind {P : β → Prop} {x : Except ε α} {f : α → Except ε β}
    (h : ∀ a, x = .ok a → Ensures P (f a)) : Ensures P (x >>= f) := by
  intro b hb
  obtain ⟨a, ha, hb⟩ := bind_eq_ok_iff.mp hb
  exact h a ha b hb

/-- Whether all errors that a computation may end with have a property. -/
def FailsBy (P : ε → Prop) (x : Except ε α) : Prop := ∀ e, x = .error e → P e

theorem failsBy_pure {P : ε → Prop} (a : α) : FailsBy P (pure a : Except ε α) :=
  fun _ h => by cases h

theorem FailsBy.mono {P Q : ε → Prop} {x : Except ε α} (h : FailsBy P x) (hPQ : ∀ e, P e → Q e) :
    FailsBy Q x :=
  fun e he => hPQ e (h e he)

/-- A sequence of steps fails by what its steps fail by. -/
theorem failsBy_bind {P : ε → Prop} {x : Except ε α} {f : α → Except ε β} (hx : FailsBy P x)
    (hf : ∀ a, x = .ok a → FailsBy P (f a)) : FailsBy P (x >>= f) := by
  cases x with
  | error e =>
    intro e' h
    cases h
    exact hx e rfl
  | ok a => exact hf a rfl

/-! ## Parallel computations -/

/-- Whether two computations both succeed, the second with the image of what the first gives, or both
fail, with errors that are related. -/
inductive Parallel (E : ε → ε' → Prop) (f : α → β) : Except ε α → Except ε' β → Prop where
  | ok (a : α) : Parallel E f (.ok a) (.ok (f a))
  | error {e : ε} {e' : ε'} (h : E e e') : Parallel E f (.error e) (.error e')

namespace Parallel

variable {E : ε → ε' → Prop} {f : α → β} {g : γ → δ}

theorem of_eq {a : α} {b : β} (h : f a = b) : Parallel E f (.ok a) (.ok b) := h ▸ .ok a

theorem bind {x : Except ε α} {y : Except ε' β} {k : α → Except ε γ} {k' : β → Except ε' δ}
    (h : Parallel E f x y) (hk : ∀ a, Parallel E g (k a) (k' (f a))) :
    Parallel E g (x >>= k) (y >>= k') := by
  cases h with
  | ok a => exact hk a
  | error he => exact .error he

theorem map {x : Except ε α} {y : Except ε' β} {k : α → γ} {k' : β → δ} (h : Parallel E f x y)
    (hk : ∀ a, k' (f a) = g (k a)) :
    Parallel E g (x >>= fun a => pure (k a)) (y >>= fun b => pure (k' b)) :=
  h.bind fun a => .of_eq (hk a).symm

/-- The errors may be wrapped on both sides. -/
theorem mapError {ζ ζ' : Type} {E' : ζ → ζ' → Prop} {w : ε → ζ} {w' : ε' → ζ'} {x : Except ε α}
    {y : Except ε' β} (h : Parallel E f x y) (hw : ∀ e e', E e e' → E' (w e) (w' e')) :
    Parallel E' f (x.mapError w) (y.mapError w') := by
  cases h with
  | ok a => exact .ok a
  | error he => exact .error (hw _ _ he)

theorem mapM {k : γ → Except ε α} {k' : δ → Except ε' β} {xs : List γ}
    (h : ∀ x ∈ xs, Parallel E f (k x) (k' (g x))) :
    Parallel E (List.map f) (xs.mapM k) ((xs.map g).mapM k') := by
  induction xs with
  | nil => exact .ok []
  | cons x xs ih =>
    rw [List.forall_mem_cons] at h
    rw [List.map_cons, List.mapM_cons, List.mapM_cons]
    exact h.1.bind fun a => (ih h.2).bind fun as => .ok (a :: as)

theorem foldlM {k : α → γ → Except ε α} {k' : β → δ → Except ε' β} {xs : List γ}
    (h : ∀ a, ∀ x ∈ xs, Parallel E f (k a x) (k' (f a) (g x))) (a : α) :
    Parallel E f (xs.foldlM k a) ((xs.map g).foldlM k' (f a)) := by
  induction xs generalizing a with
  | nil => exact .ok a
  | cons x xs ih =>
    rw [List.map_cons, List.foldlM_cons, List.foldlM_cons]
    exact (h a x List.mem_cons_self).bind
      (ih fun a y hy => h a y (List.mem_cons_of_mem _ hy))

end Parallel

end RelationAlgebra
