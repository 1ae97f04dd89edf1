import RelationAlgebra.Proofs.ComplementGrowth
import RelationAlgebra.Proofs.DeMorgan
import RelationAlgebra.Proofs.History
import RelationAlgebra.Proofs.Termination

/-!
# Which insertions reach a relation

A relation is computed from the stored relations that it is built on, and from those that the
registries of its complements list. Tuples that are added to any other relation (`Store.Apart`)
leave its answers and its rows as they are, the order of the rows included
(`Session.untouched_of_apart`). Two things make this so. What a relation consults is what it is
built on or what a complement in it finds in its registry (`Store.Consults.cases`), and an insertion
changes the rows of one number (`Session.after_addsTo`), which no two relations of a session share.
-/

namespace RelationAlgebra

/-! ## What a relation is built on -/

namespace Relation

variable {r q : Relation} {b : Base}

theorem involves_iff : r.Involves q ↔ q = r ∨ ∃ v ∈ r.operands, v.relation.Involves q := by
  constructor
  · intro h
    cases h with
    | refl => exact Or.inl rfl
    | operand hv h => exact Or.inr ⟨_, hv, h⟩
  · rintro (rfl | ⟨v, hv, h⟩)
    · exact .refl q
    · exact .operand hv h

theorem eq_of_involves_base (h : (base b).Involves q) : q = .base b := by
  cases h with
  | refl => rfl
  | operand hv => cases hv

/-- A stored relation that is involved is one that the relation rests on. -/
theorem restsOn_of_involves (h : r.Involves (.base b)) : r.RestsOn b := by
  generalize hq : Relation.base b = q at h
  induction h with
  | refl => exact hq ▸ .base b
  | operand hv _ ih => exact .operand hv (ih hq)

end Relation

namespace Store

variable {s : Store} {r : Relation} {b x : Base}

/-- Whether a relation is neither built on a stored relation nor on a complement that finds the
latter in its registry, under the arity of its operand. -/
structure Apart (s : Store) (r : Relation) (x : Base) : Prop where
  operand : ¬ r.Involves (.base x)
  registered : ∀ {id v registry}, r.Involves (.complement id v registry) →
    x ∉ s.ofArity registry v.relation.arity

/-- What a relation consults, it is built on, or a complement that it is built on finds it in its
registry. -/
theorem Consults.cases (h : s.Consults r b) :
    r.Involves (.base b) ∨ ∃ id v registry, r.Involves (.complement id v registry) ∧
      b ∈ s.ofArity registry v.relation.arity := by
  induction h with
  | base => exact Or.inl (.refl _)
  | operand hv _ ih =>
    rcases ih with h | ⟨id, w, registry, h, hb⟩
    · exact Or.inl (.operand hv h)
    · exact Or.inr ⟨id, w, registry, .operand hv h, hb⟩
  | ambient hb _ => exact Or.inr ⟨_, _, _, .refl _, hb⟩

/-- What a relation stands apart from is not consulted for it. -/
theorem Apart.not_consults (h : s.Apart r x) : ¬ s.Consults r x := by
  intro hx
  rcases hx.cases with hx | ⟨id, v, registry, hv, hx⟩
  · exact h.operand hx
  · exact h.registered hv hx

end Store

namespace Session

variable {s : Session} {r q : Relation} {b x : Base} {kind : Base → Prop} {e : Event}
  {es : List Event}

theorem Contains.involved (h : s.Contains r) (hq : r.Involves q) : s.Contains q := by
  induction hq with
  | refl => exact h
  | operand hv _ ih => exact ih (h.operand hv)

theorem Contains.knows (h : s.Contains (.base b)) : s.Knows b := by
  cases h with
  | registered h =>
    obtain ⟨c, hc, heq⟩ := List.mem_map.mp h
    obtain rfl := Relation.base.inj heq
    exact .registered hc
  | named hq h =>
    obtain ⟨n, k, hname, hk⟩ := hq
    have hrests := Relation.restsOn_of_involves h
    refine .named hname ?_
    cases k with
    | relation q =>
      obtain rfl := Option.some.inj hk
      exact hrests
    | binary c =>
      obtain rfl := Option.some.inj hk
      exact hrests.eq
    | view v =>
      obtain rfl := Option.some.inj hk
      exact hrests
    | extension | scan => cases hk

/-- What a relation of a session consults is known. -/
theorem Contains.knows_of_consults (h : s.Contains r) (hb : s.store.Consults r b) : s.Knows b := by
  rcases hb.cases with hb | ⟨id, v, registry, -, hb⟩
  · exact (h.involved hb).knows
  · exact .registered (List.mem_of_mem_filter hb)

/-- A relation says the same as before if the registries are as before and only relations that it is
apart from have got other rows. -/
theorem Reached.read_of_apart (hs : s.Reached) (hr : s.Contains r) {store : Store}
    (hregistry : ∀ name, store.registry name = s.store.registry name)
    (hrows : ∀ b : Base, (∀ x, s.Knows x → s.store.Apart r x → x.id ≠ b.id) →
      store.extension b = s.store.extension b) :
    store.read r = s.store.read r := by
  refine (hs.valid.built_of_contains hr).read_congr hregistry fun b hb => hrows b ?_
  intro x hx hapart hid
  -- numbers tell the relations of a session apart
  obtain rfl := hs.lawful.unique hx (hr.knows_of_consults hb) hid
  exact hapart.not_consults hb

/-! ## Insertions -/

/-- An insertion through a handle is the insertion into the relation it stands for, and a failed one
leaves the session as it was. -/
theorem step_addAll {relation : String} (hr : s.relation relation = .ok r) (tuples : List Tuple)
    (name : Option String) :
    s.step (.act (.addAll relation tuples) name) = match s.store.addAll r tuples with
      | .ok store => (.ok (.count (store.rows r).size), { s with store })
      | .error e => (.error (.algebra e), s) := by
  have hact : s.act name (.addAll relation tuples) =
      (s.store.addAll r tuples).mapError .algebra >>= fun store =>
        pure (.count (store.rows r).size, { s with store }) := by
    rw [act, hr]
    rfl
  rw [step, attempt, hact]
  cases s.store.addAll r tuples <;> rfl

theorem perform_addAll {relation : String} (hr : s.relation relation = .ok r) (tuples : List Tuple)
    (name : Option String) :
    s.perform (.act (.addAll relation tuples) name) =
      s.step (.act (.addAll relation tuples) name) := by
  rw [step_addAll hr, perform, actInPlace, hr, resolve, write, InPlace.perform_addAll]
  cases s.store.addAll r tuples <;> rfl

/-- An insertion gives one relation other rows, or changes nothing at all. -/
theorem after_addsTo (h : s.AddsTo kind e.request) :
    s.after e = s ∨ ∃ x y, s.Knows x ∧ kind x ∧
      s.after e = { s with store := s.store.refill x.id y } := by
  obtain ⟨relation, tuples, name, x, hrequest, hx, hkind⟩ := h
  have hstep := step_addAll hx tuples name
  rw [after, hrequest, perform_addAll hx, ite_self, hstep]
  cases hadd : s.store.addAll (.base x) tuples with
  | error e => exact Or.inl rfl
  | ok store =>
    obtain ⟨y, -, rfl⟩ := Store.addAll_base_eq_ok_iff.mp hadd
    exact Or.inr ⟨x, y, knows_of_relation hx (.base x), hkind, rfl⟩

/-- Insertions change no registry, and no rows but those of the relations that they go to. -/
theorem replay_of_addsTo (hes : ∀ e ∈ es, s.AddsTo kind e.request) :
    (∀ name, (s.replay es).store.registry name = s.store.registry name) ∧
      ∀ b : Base, (∀ x, s.Knows x → kind x → x.id ≠ b.id) →
        (s.replay es).store.extension b = s.store.extension b := by
  induction es generalizing s with
  | nil => exact ⟨fun _ => rfl, fun _ _ => rfl⟩
  | cons e es ih =>
    rw [List.forall_mem_cons] at hes
    obtain ⟨hhead, htail⟩ := hes
    have hreplay : s.replay (e :: es) = (s.after e).replay es := rfl
    rw [hreplay]
    rcases after_addsTo hhead with heq | ⟨x, y, hx, hkind, heq⟩
    · rw [heq]
      exact ih htail
    · rw [heq]
      -- what is known, and what names stand for, does not depend on rows
      obtain ⟨hregistry, hrows⟩ := ih (s := { s with store := s.store.refill x.id y }) htail
      refine ⟨hregistry, fun b hb => ?_⟩
      have hknows : ∀ x' : Base,
          ({ s with store := s.store.refill x.id y } : Session).Knows x' → s.Knows x' :=
        fun x' hx' => knows_of_store hx' fun _ => rfl
      rw [hrows b fun x' hx' => hb x' (hknows x' hx'), Store.extension_refill,
        if_neg (hb x hx hkind).symm]

/-- Tuples that are added to a relation `x` leave a relation as it is, its answers, its rows and
their order, if it is neither built on `x` nor on a complement in whose registry `x` is listed under
the arity of the operand. Nor is it touched by any course of insertions into such relations, whether
they succeed or fail and whether they are performed in place or not. -/
theorem untouched_of_apart (hs : s.Reached) (hr : s.Contains r) :
    (∀ x, s.Knows x → s.store.Apart r x → ∀ tuples store,
      s.store.addAll (.base x) tuples = .ok store →
        store.rows r = s.store.rows r ∧ ∀ t, store.accepts r t = s.store.accepts r t) ∧
    ∀ es : List Event, (∀ e ∈ es, s.AddsTo (s.store.Apart r) e.request) →
      (s.replay es).store.rows r = s.store.rows r ∧
        ∀ t, (s.replay es).store.accepts r t = s.store.accepts r t := by
  have hsame : ∀ {store : Store}, store.read r = s.store.read r →
      store.rows r = s.store.rows r ∧ ∀ t, store.accepts r t = s.store.accepts r t := by
    intro store h
    exact ⟨congrArg Reading.extension h, fun t => congrFun (congrArg Reading.accepts h) t⟩
  refine ⟨fun x hx hapart tuples store hadd => hsame ?_, fun es hes => hsame ?_⟩
  · obtain ⟨y, -, rfl⟩ := Store.addAll_base_eq_ok_iff.mp hadd
    refine hs.read_of_apart hr (fun _ => rfl) fun b hb => ?_
    rw [Store.extension_refill, if_neg (hb x hx hapart).symm]
  · obtain ⟨hregistry, hrows⟩ := replay_of_addsTo hes
    exact hs.read_of_apart hr hregistry hrows

/-- The lending example with what is wanted and not owned. -/
def lendingUnmetRequests : List Request :=
  let A : Binding := .var (.named "A")
  let B : Binding := .var (.named "B")
  lendingRequests ++
    [.act (.derive .complement [.handle "owns"] "main") (some "foreign"),
     .act (.derive .intersection [.bound "foreign" [A, B], .bound "wants" [A, B]] "main")
       (some "unmet")]

def lendingUnmet : Session := (empty.run lendingUnmetRequests).2

/-- What happens then: two batches for a relation in no registry, of which one is refused. -/
def lendingUnmetSequel : List Event :=
  [⟨.act (.addAll "borrows" [[.text "ann", .text "bike"], [.text "bob"]]) none, true⟩,
   ⟨.act (.addAll "borrows" [[.text "ann", .text "bike"]]) none, true⟩]

def lendingWants : Base := { name := "wants", arity := 2, id := 2 }

/-- What other relations of the registry hold and is not owned. -/
def lendingForeign : Relation := .complement 4 (Relation.base lendingOwns).identityView "main"

def lendingUnmetWants : Relation :=
  .intersection 5
    [⟨lendingForeign, [.var (.named "A"), .var (.named "B")]⟩,
     ⟨.base lendingWants, [.var (.named "A"), .var (.named "B")]⟩]

theorem involves_lendingUnmetWants {q : Relation} (h : lendingUnmetWants.Involves q) :
    q = lendingUnmetWants ∨ q = lendingForeign ∨ q = .base lendingOwns ∨
      q = .base lendingWants := by
  rcases Relation.involves_iff.mp h with rfl | ⟨v, hv, h⟩
  · exact Or.inl rfl
  rcases List.mem_pair.mp hv with rfl | rfl
  · rcases Relation.involves_iff.mp h with rfl | ⟨w, hw, h⟩
    · exact Or.inr (Or.inl rfl)
    · obtain rfl := List.mem_singleton.mp hw
      exact Or.inr (Or.inr (Or.inl (Relation.eq_of_involves_base h)))
  · exact Or.inr (Or.inr (Or.inr (Relation.eq_of_involves_base h)))

theorem apart_lendingUnmetWants : lendingUnmet.store.Apart lendingUnmetWants lendingBorrows := by
  refine ⟨fun h => ?_, fun {id v registry} h hlisted => ?_⟩
  · rcases involves_lendingUnmetWants h with heq | heq | heq | heq <;>
      exact absurd (congrArg Relation.id heq) (by decide)
  · rcases involves_lendingUnmetWants h with heq | heq | heq | heq <;> cases heq
    have hmain : lendingUnmet.store.registry "main" = [lendingOwns, lendingWants] := rfl
    have hmem := List.mem_of_mem_filter hlisted
    rw [hmain] at hmem
    exact absurd hmem (by decide)

theorem untouched_of_apart_lendingUnmet :
    lendingUnmet.Reached ∧ lendingUnmet.relation "unmet" = .ok lendingUnmetWants ∧
      lendingUnmet.store.Apart lendingUnmetWants lendingBorrows ∧
      ((lendingUnmet.replay lendingUnmetSequel).store.rows lendingUnmetWants).rows =
        [[.text "ann", .text "bike"]] ∧
      (lendingUnmet.replay lendingUnmetSequel).store.accepts lendingUnmetWants
        [.text "ann", .text "bike"] = true := by
  have hreached : lendingUnmet.Reached := reached_run .empty lendingUnmetRequests
  have hunmet : lendingUnmet.relation "unmet" = .ok lendingUnmetWants := rfl
  have hborrows : lendingUnmet.relation "borrows" = .ok (.base lendingBorrows) := rfl
  have hes : ∀ e ∈ lendingUnmetSequel,
      lendingUnmet.AddsTo (lendingUnmet.store.Apart lendingUnmetWants) e.request := by
    intro e he
    rcases List.mem_pair.mp he with rfl | rfl
    · exact (addsTo_iff hborrows).mpr apart_lendingUnmetWants
    · exact (addsTo_iff hborrows).mpr apart_lendingUnmetWants
  have hcontains : lendingUnmet.Contains lendingUnmetWants :=
    .named (names_of_relation hunmet) (.refl _)
  obtain ⟨hrows, haccepts⟩ := (untouched_of_apart hreached hcontains).2 lendingUnmetSequel hes
  refine ⟨hreached, hunmet, apart_lendingUnmetWants, ?_, ?_⟩
  · rw [hrows]
    rfl
  · rw [haccepts]
    rfl

end Session

end RelationAlgebra
