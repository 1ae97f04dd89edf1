import RelationAlgebra.Proofs.Join

/-!
# The search as a nested loop

The meaning of the search with order and multiplicity. A choice takes one row of every operand, and
choices come in lexicographic order of the rows (`mem_choices`, `pairwise_choices`). Matching a row
slot by slot succeeds exactly if the row agrees with the assignment (`Assignment.isSome_unify_iff`),
and it gives each variable without a value the first atom that a slot holds for it
(`Assignment.get?_unify`).

Over stored relations the solutions that the search goes through are the choices that agree with the
assignment, one solution for each, in their order (`Store.forall₂_solutions`). That an operand with
settled slots is looked up and not walked does not show, because rows do not repeat.
-/

namespace RelationAlgebra

/-! ## Choices -/

section Choices

variable {α : Type}

/-- The lists with one element of each of several lists: a loop over each list inside that over the
list before it. -/
def choices : List (List α) → List (List α)
  | [] => [[]]
  | xs :: xss => xs.flatMap fun x => (choices xss).map (x :: ·)

theorem mem_choices {xss : List (List α)} {c : List α} :
    c ∈ choices xss ↔ List.Forall₂ (· ∈ ·) c xss := by
  induction xss generalizing c with
  | nil => simp [choices]
  | cons xs xss ih =>
    simp only [choices, List.mem_flatMap, List.mem_map, ih, List.forall₂_cons_right_iff]
    constructor
    · rintro ⟨x, hx, c, hc, rfl⟩
      exact ⟨x, c, hx, hc, rfl⟩
    · rintro ⟨x, c, hx, hc, rfl⟩
      exact ⟨x, hx, c, hc, rfl⟩

variable [BEq α] [LawfulBEq α]

/-- Whether a choice comes before another: in the first list where they differ, its element stands
before the other. -/
def Precedes : List (List α) → List α → List α → Prop
  | xs :: xss, x :: c, y :: d => xs.idxOf x < xs.idxOf y ∨ (x = y ∧ Precedes xss c d)
  | _, _, _ => False

omit [LawfulBEq α] in
theorem Precedes.ne {xss : List (List α)} {c d : List α} (h : Precedes xss c d) : c ≠ d := by
  induction xss generalizing c d with
  | nil => cases h
  | cons xs xss ih =>
    cases c with
    | nil => cases h
    | cons x c =>
      cases d with
      | nil => cases h
      | cons y d =>
        rintro heq
        obtain ⟨rfl, rfl⟩ := List.cons.inj heq
        rcases h with h | ⟨-, h⟩
        · exact absurd h (Nat.lt_irrefl _)
        · exact ih h rfl

/-- Choices come in lexicographic order, so none of them comes twice. -/
theorem pairwise_choices {xss : List (List α)} (h : ∀ xs ∈ xss, xs.Nodup) :
    (choices xss).Pairwise (Precedes xss) := by
  induction xss with
  | nil => simp [choices]
  | cons xs xss ih =>
    rw [List.forall_mem_cons] at h
    rw [choices, List.pairwise_flatMap]
    refine ⟨fun x _ => ?_, ?_⟩
    · rw [List.pairwise_map]
      exact (ih h.2).imp fun hcd => Or.inr ⟨rfl, hcd⟩
    · have hpairwise := pairwise_eraseDups xs
      rw [eraseDups_eq_self h.1] at hpairwise
      refine hpairwise.imp fun {x y} hxy c hc d hd => ?_
      obtain ⟨c, -, rfl⟩ := List.mem_map.mp hc
      obtain ⟨d, -, rfl⟩ := List.mem_map.mp hd
      exact Or.inl hxy

end Choices

/-! ## Agreement -/

namespace Assignment

variable {α β : Assignment} {slots slots' : Slots} {row row' t : Tuple} {v : Var} {b : Binding}
  {x : Atom} {held : List (Binding × Atom)}

/-- Whether the atoms that slots hold agree with an assignment and with each other: a slot that is
settled holds the atom that it must hold, and slots with one variable hold one atom. -/
def Agrees (α : Assignment) (held : List (Binding × Atom)) : Prop :=
  (∀ p ∈ held, ∀ y ∈ α.slot? p.1, y = p.2) ∧
    ∀ p ∈ held, ∀ q ∈ held, p.1 = q.1 → p.1.var?.isSome → p.2 = q.2

instance (α : Assignment) (held : List (Binding × Atom)) : Decidable (α.Agrees held) :=
  inferInstanceAs (Decidable (_ ∧ _))

/-- A slot agrees if it holds what it must hold and what the other slots of its variable hold. -/
theorem agrees_cons {p : Binding × Atom} :
    α.Agrees (p :: held) ↔ (∀ y ∈ α.slot? p.1, y = p.2) ∧
      (p.1.var?.isSome → ∀ q ∈ held, q.1 = p.1 → q.2 = p.2) ∧ α.Agrees held := by
  simp only [Agrees, List.forall_mem_cons]
  constructor
  · rintro ⟨⟨hp, hheld⟩, ⟨-, hpq⟩, hq⟩
    exact ⟨hp, fun hvar q hm he => (hpq q hm he.symm hvar).symm, hheld, fun q hm => (hq q hm).2⟩
  · rintro ⟨hp, hpq, hheld, hq⟩
    refine ⟨⟨hp, hheld⟩, ⟨by simp, fun q hm he hvar => (hpq hvar q hm he.symm).symm⟩, ?_⟩
    exact fun q hm => ⟨fun he hvar => hpq (he ▸ hvar) q hm he, hq q hm⟩

theorem agrees_wildcard : α.Agrees ((.wildcard, x) :: held) ↔ α.Agrees held := by
  simp [agrees_cons, slot?, Binding.var?]

theorem agrees_literal {a : Atom} :
    α.Agrees ((.literal a, x) :: held) ↔ a = x ∧ α.Agrees held := by
  simp [agrees_cons, slot?, Binding.var?]

theorem agrees_var_of_some {y : Atom} (h : α.get? v = some y) :
    α.Agrees ((.var v, x) :: held) ↔ y = x ∧ α.Agrees held := by
  have hslot : α.slot? (.var v) = some y := h
  rw [agrees_cons, hslot]
  simp only [Option.mem_some_iff, forall_eq']
  refine and_congr_right fun hyx => ⟨And.right, fun hheld => ⟨fun _ q hq he => ?_, hheld⟩⟩
  exact (hheld.1 q hq y (he ▸ hslot)).symm.trans hyx

theorem slot?_assign :
    (α.assign v x).slot? b = if b = .var v then some x else α.slot? b := by
  cases b with
  | var w => simp [slot?, get?_assign]
  | wildcard | literal => simp [slot?]

theorem agrees_var_of_none (h : α.get? v = none) :
    α.Agrees ((.var v, x) :: held) ↔ (α.assign v x).Agrees held := by
  have hslot : α.slot? (.var v) = none := h
  rw [agrees_cons, hslot]
  simp only [Agrees, slot?_assign]
  constructor
  · rintro ⟨-, hvar, hheld, hshared⟩
    refine ⟨fun p hp y hy => ?_, hshared⟩
    split at hy
    next he => exact (Option.some.inj hy).symm.trans (hvar rfl p hp he).symm
    next => exact hheld p hp y hy
  · rintro ⟨hheld, hshared⟩
    refine ⟨by simp, fun _ q hq he => (hheld q hq x (by simp [he])).symm, fun p hp y hy => ?_,
      hshared⟩
    refine hheld p hp y ?_
    rwa [if_neg]
    rintro he
    rw [he, hslot] at hy
    cases hy

/-! ## Matching -/

/-- Matching succeeds exactly if the row agrees with the assignment, slot by slot. -/
theorem isSome_unify_iff : (α.unify slots row).isSome ↔ α.Agrees (slots.zip row) := by
  fun_induction unify α slots row with
  | case1 α slots y row ih => rw [ih, List.zip_cons_cons, agrees_wildcard]
  | case2 α slots x row ih => rw [ih, List.zip_cons_cons, agrees_literal]; simp
  | case3 α x slots y row hne => simp [agrees_literal, hne]
  | case4 α v slots row x hx ih => rw [ih, List.zip_cons_cons, agrees_var_of_some hx]; simp
  | case5 α v slots y row x hx hne => simp [agrees_var_of_some hx, hne]
  | case6 α v slots y row hnone ih => rw [ih, List.zip_cons_cons, agrees_var_of_none hnone]
  | case7 α row => simp [Agrees]
  | case8 slots α => simp [Agrees]

theorem lookup_zip_cons_of_ne {b' : Binding} (h : b ≠ b') :
    (List.zip (b' :: slots) (x :: row)).lookup b = (slots.zip row).lookup b := by
  rw [List.zip_cons_cons, List.lookup_cons, beq_eq_false_iff_ne.mpr h]

/-- After matching, a variable that had no value has the first atom that one of its slots holds. -/
theorem get?_unify (h : α.unify slots row = some β) (v : Var) :
    β.get? v = (α.get? v).or ((slots.zip row).lookup (.var v)) := by
  fun_induction unify α slots row with
  | case1 α slots y row ih => rw [ih h, lookup_zip_cons_of_ne (by simp)]
  | case2 α slots x row ih => rw [ih h, lookup_zip_cons_of_ne (by simp)]
  | case3 | case5 => cases h
  | case4 α w slots x row hw ih =>
    rw [ih h]
    by_cases hv : v = w
    · simp [hv, hw]
    · rw [lookup_zip_cons_of_ne (by simpa using hv)]
  | case6 α w slots y row hw ih =>
    rw [ih h, get?_assign]
    by_cases hv : v = w
    · simp [hv, hw]
    · rw [if_neg hv, lookup_zip_cons_of_ne (by simpa using hv)]
  | case7 => simp_all
  | case8 => simp_all

/-- Matching one row after another is matching the one that they make together. -/
theorem unify_append (hlen : slots.length = row.length) (α : Assignment) :
    α.unify (slots ++ slots') (row ++ row') =
      (α.unify slots row).bind fun β => β.unify slots' row' := by
  fun_induction unify α slots row with
  | case1 α slots y row ih =>
    rw [← ih (by simpa using hlen)]
    simp [unify]
  | case2 α slots x row ih =>
    rw [← ih (by simpa using hlen)]
    simp [unify]
  | case3 α slots x row y hne => simp [unify, hne]
  | case4 α v slots x row hv ih =>
    rw [← ih (by simpa using hlen)]
    simp [unify, hv]
  | case5 α v slots y row x hv hne => simp [unify, hv, hne]
  | case6 α v slots y row hv ih =>
    rw [← ih (by simpa using hlen)]
    simp [unify, hv]
  | case7 α row =>
    have hrow : row = [] := List.eq_nil_of_length_eq_zero hlen.symm
    simp [hrow]
  | case8 slots α =>
    have hslots : slots = [] := List.eq_nil_of_length_eq_zero hlen
    simp [hslots]

/-- Where all slots are settled, matching adds no value. -/
theorem unify_of_row? (hlen : slots.length = row.length) (h : α.row? slots = some t) :
    α.unify slots row = if row = t then some α else none := by
  induction slots generalizing row t with
  | nil =>
    have hrow : row = [] := List.eq_nil_of_length_eq_zero hlen.symm
    have ht : t = [] := by simpa [row?] using h.symm
    simp [hrow, ht, unify]
  | cons b slots ih =>
    obtain ⟨x, t, hx, ht, rfl⟩ := row?_cons_eq_some_iff.mp h
    cases row with
    | nil => cases hlen
    | cons y row =>
      have hrest := ih (by simpa using hlen) ht
      cases b with
      | var v =>
        have hv : α.get? v = some x := hx
        by_cases hxy : x = y
        · simp [unify, hv, hxy, hrest]
        · simp [unify, hv, hxy, Ne.symm hxy]
      | wildcard => cases hx
      | literal a =>
        obtain rfl : a = x := Option.some.inj hx
        by_cases hxy : a = y
        · simp [unify, hxy, hrest]
        · simp [unify, hxy, Ne.symm hxy]

end Assignment

/-! ## The search over stored relations -/

theorem filterMap_eq_of_nodup {α β : Type} [DecidableEq α] {xs : List α} (h : xs.Nodup) (x : α)
    (y : β) :
    (xs.filterMap fun x' => if x' = x then some y else none) = if x ∈ xs then [y] else [] := by
  induction xs with
  | nil => rfl
  | cons x' xs ih =>
    rw [List.nodup_cons] at h
    by_cases hx : x' = x
    · subst hx
      simp [ih h.2, h.1]
    · simp [ih h.2, hx, Ne.symm hx]

namespace Reading

variable {operand : Bound Reading} {operands : List (Bound Reading)} {α : Assignment}

/-- Whether looking a row up comes to the same as walking the rows. -/
structure Plain (operand : Bound Reading) : Prop where
  proper : Proper operand
  exact : operand.relation.Exact
  nodup : operand.relation.extension.rows.Nodup

/-- An operand extends an assignment by each row that matches, whether its slots are settled or
not. -/
theorem Plain.extend_eq (h : Plain operand) (α : Assignment) :
    extend operand α = operand.relation.extension.rows.filterMap (α.unify operand.slots) := by
  cases hs : α.row? operand.slots with
  | none => exact extend_of_open hs
  | some t =>
    have hunify : ∀ row ∈ operand.relation.extension.rows,
        α.unify operand.slots row = if row = t then some α else none :=
      fun row hrow => Assignment.unify_of_row? (h.proper row hrow) hs
    rw [extend_of_settled hs, List.filterMap_congr hunify, filterMap_eq_of_nodup h.nodup]
    by_cases ht : t ∈ operand.relation.extension.rows
    · rw [if_pos ht, if_pos ((h.exact t).mpr ht)]
    · rw [if_neg ht, if_neg (mt (h.exact t).mp ht)]

/-- The solutions are the choices of one row for each operand that match, in their order. -/
theorem solutions_eq_filterMap (h : ∀ o ∈ operands, Plain o) (α : Assignment) :
    solutions operands α =
      (choices (operands.map fun o => o.relation.extension.rows)).filterMap fun c =>
        α.unify (operands.flatMap Bound.slots) c.flatten := by
  induction operands generalizing α with
  | nil => simp [solutions, choices, Assignment.unify]
  | cons operand operands ih =>
    rw [List.forall_mem_cons] at h
    rw [solutions, h.1.extend_eq, List.map_cons, choices, List.filterMap_flatMap,
      List.filterMap_eq_flatMap_toList, List.flatMap_assoc]
    refine List.flatMap_congr fun row hrow => ?_
    simp only [List.filterMap_map, Function.comp_def, List.flatMap_cons, List.flatten_cons,
      Assignment.unify_append (h.1.proper row hrow)]
    cases α.unify operand.slots row with
    | none => simp
    | some β => simpa using ih h.2 β

end Reading

/-- What a filter keeps and what a partial function gives for it stand in the same places. -/
theorem forall₂_filter_filterMap {α β : Type} {p : α → Prop} [DecidablePred p] {f : α → Option β}
    {R : α → β → Prop} (hp : ∀ x, (f x).isSome ↔ p x) (hR : ∀ x y, f x = some y → R x y)
    (xs : List α) : List.Forall₂ R (xs.filter p) (xs.filterMap f) := by
  induction xs with
  | nil => exact .nil
  | cons x xs ih =>
    cases hx : f x with
    | none =>
      have hpx : ¬ p x := by simp [← hp, hx]
      rwa [List.filterMap_cons_none hx, List.filter_cons_of_neg (by simpa using hpx)]
    | some y =>
      have hpx : p x := by simp [← hp, hx]
      rw [List.filterMap_cons_some hx, List.filter_cons_of_pos (by simpa using hpx)]
      exact .cons (hR x y hx) ih

namespace Store

variable {s : Store} {operands : List (Bound Base)}

/-- What the slots of the operands hold in a choice of one row for each operand. -/
def held (operands : List (Bound Base)) (c : List Tuple) : List (Binding × Atom) :=
  (operands.flatMap Bound.slots).zip c.flatten

/-- The choices of one stored row for each operand that agree with an assignment, in the order in
which the rows were added. -/
def combinations (s : Store) (operands : List (Bound Base)) (α : Assignment) : List (List Tuple) :=
  (choices (operands.map fun o => (s.extension o.relation).rows)).filter fun c =>
    α.Agrees (held operands c)

/-- A combination takes a row of each operand, and its rows agree. -/
theorem mem_combinations {α : Assignment} {c : List Tuple} :
    c ∈ s.combinations operands α ↔
      List.Forall₂ (fun o row => row ∈ (s.extension o.relation).rows) operands c ∧
        α.Agrees (held operands c) := by
  rw [combinations, List.mem_filter, mem_choices, List.forall₂_map_right_iff, decide_eq_true_iff]
  exact and_congr_left' ⟨.flip, .flip⟩

/-- Combinations come in the order of nested loops. -/
theorem pairwise_combinations (hs : s.Valid) (operands : List (Bound Base)) (α : Assignment) :
    (s.combinations operands α).Pairwise
      (Precedes (operands.map fun o => (s.extension o.relation).rows)) := by
  refine (pairwise_choices ?_).filter _
  rw [List.forall_mem_map]
  exact fun o _ => (hs.valid_extension o.relation).nodup

theorem plain_view (hs : s.Valid) (ho : ∀ o ∈ operands, s.BuiltView o.view) :
    ∀ o ∈ (operands.map Bound.view).map s.readBound, Reading.Plain o := by
  have hexact := proper_and_exact_view hs ho
  simp only [List.forall_mem_map] at hexact ⊢
  intro o hm
  refine ⟨(hexact o hm).1, (hexact o hm).2, ?_⟩
  exact (hs.valid_extension o.relation).nodup

/-- Over stored relations the solutions extend the assignment by the choices that agree with it, one
after another. -/
theorem forall₂_solutions (hs : s.Valid) (ho : ∀ o ∈ operands, s.BuiltView o.view)
    (α : Assignment) :
    List.Forall₂ (fun c β => ∀ v, β.get? v = (α.get? v).or ((held operands c).lookup (.var v)))
      (s.combinations operands α)
      (Reading.solutions ((operands.map Bound.view).map s.readBound) α) := by
  have hrows : ((operands.map Bound.view).map s.readBound).map
      (fun o => o.relation.extension.rows) = operands.map fun o => (s.extension o.relation).rows := by
    simp only [List.map_map]
    rfl
  have hslots : ((operands.map Bound.view).map s.readBound).flatMap Bound.slots =
      operands.flatMap Bound.slots := by
    simp [List.flatMap_map, Bound.view]
  rw [Reading.solutions_eq_filterMap (plain_view hs ho), hrows, hslots]
  exact forall₂_filter_filterMap (fun c => Assignment.isSome_unify_iff)
    (fun c β h => Assignment.get?_unify h) _

end Store

end RelationAlgebra
