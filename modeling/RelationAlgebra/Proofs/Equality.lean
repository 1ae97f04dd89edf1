import Mathlib.Data.List.Perm.Subperm
import RelationAlgebra.Proofs.Arity
import RelationAlgebra.Proofs.Inducer
import RelationAlgebra.Proofs.Insertion

/-!
# Equal extensions

Two extensions are compared by their sizes and by one inclusion. Since no row is repeated, the other
inclusion follows, and the extensions are equal if they hold the same tuples
(`Extension.equal_iff`). This depends on how extensions come about (`Extension.Obtained`): by
insertions, as the rows of a relation, or as what a complement is taken in. Equal extensions may
differ in the order of their rows, which no inducer and no guard gets to see (`Extension.Alike`).
-/

namespace RelationAlgebra.Extension

variable {x y : Extension} {arity : Nat} {relation : String} {tuples tuples' : List Tuple}

/-! ## How extensions come about -/

/-- Whether the operations of the algebra lead to an extension. -/
inductive Obtained : Extension → Prop where
  | empty (arity : Nat) : Obtained (.empty arity)
  | insert {x y : Extension} {relation : String} {t : Tuple} (hx : Obtained x)
    (h : x.insert relation t = .ok y) : Obtained y
  | rows {s : Session} {r : Relation} (hs : s.Reached) (hr : s.store.Built r) :
    Obtained (s.store.rows r)
  | ambient {s : Session} (hs : s.Reached) (registry : String) (arity id : Nat) :
    Obtained (s.store.ambient registry arity id)

/-- However an extension is obtained, its rows have its arity and none is repeated. -/
theorem Obtained.valid (h : x.Obtained) : x.Valid := by
  induction h with
  | empty arity => exact valid_empty arity
  | insert _ h ih =>
    obtain ⟨hlen, rfl⟩ := insert_eq_ok_iff.mp h
    exact ih.push hlen
  | rows hs hr => exact (Store.ofArity_rows hs.valid.store hr).valid
  | ambient hs registry arity id =>
    exact (Store.ofArity_ambient hs.valid.store registry arity id).valid

/-- Tuples make an extension if all of them have its length. -/
theorem foldlM_insert_eq_ok_iff :
    tuples.foldlM (fun x t => x.insert relation t) x = .ok y ↔
      (∀ t ∈ tuples, t.length = x.arity) ∧ y = x.pushAll tuples := by
  induction tuples generalizing x with
  | nil =>
    constructor
    · intro h
      exact ⟨by simp, (Except.ok.inj h).symm⟩
    · rintro ⟨-, rfl⟩
      rfl
  | cons t tuples ih =>
    rw [List.foldlM_cons, bind_eq_ok_iff, List.forall_mem_cons]
    constructor
    · rintro ⟨z, hz, h⟩
      obtain ⟨hlen, rfl⟩ := insert_eq_ok_iff.mp hz
      obtain ⟨hall, rfl⟩ := ih.mp h
      rw [arity_push] at hall
      exact ⟨⟨hlen, hall⟩, rfl⟩
    · rintro ⟨⟨hlen, hall⟩, rfl⟩
      refine ⟨x.push t, insert_eq_ok_iff.mpr ⟨hlen, rfl⟩, ih.mpr ⟨?_, rfl⟩⟩
      rwa [arity_push]

theorem ofTuples_eq_ok_iff :
    ofTuples arity tuples = .ok x ↔
      (∀ t ∈ tuples, t.length = arity) ∧ x = (empty arity).pushAll tuples :=
  foldlM_insert_eq_ok_iff

theorem Obtained.ofTuples (h : ofTuples arity tuples = .ok x) : x.Obtained :=
  invariant_of_foldlM_eq_ok (P := Obtained) (fun _ _ _ hx h => .insert hx h) (.empty arity) h

/-! ## Comparing extensions -/

/-- Rows that are included in as many others are the same, if neither are repeated. -/
theorem perm_of_subset (hx : x.rows.Nodup) (hsize : y.size ≤ x.size)
    (h : ∀ t ∈ x.rows, t ∈ y.rows) : x.rows.Perm y.rows :=
  (List.subperm_of_subset hx h).perm_of_length_le hsize

/-- Equal extensions have the same rows in some order. -/
theorem equal_iff_perm (hx : x.Valid) :
    x.equal y = true ↔ x.arity = y.arity ∧ x.rows.Perm y.rows := by
  constructor
  · intro h
    rw [equal, Bool.and_eq_true, Bool.and_eq_true, beq_iff_eq, beq_iff_eq, List.all_eq_true] at h
    obtain ⟨⟨harity, hsize⟩, hall⟩ := h
    have hsubset : ∀ t ∈ x.rows, t ∈ y.rows := fun t ht => contains_iff.mp (hall t ht)
    exact ⟨harity, perm_of_subset hx.nodup (Nat.le_of_eq hsize.symm) hsubset⟩
  · rintro ⟨harity, hperm⟩
    exact equal_of_perm harity hperm

theorem contains_congr_iff :
    (∀ t, x.contains t = y.contains t) ↔ ∀ t, t ∈ x.rows ↔ t ∈ y.rows := by
  refine forall_congr' fun t => ?_
  rw [Bool.eq_iff_iff, contains_iff, contains_iff]

/-- Extensions are equal if they have the same arity and hold the same tuples. -/
theorem equal_iff (hx : x.Valid) (hy : y.Valid) :
    x.equal y = true ↔ x.arity = y.arity ∧ ∀ t, x.contains t = y.contains t := by
  rw [equal_iff_perm hx, contains_congr_iff, List.perm_ext_iff_of_nodup hx.nodup hy.nodup]

theorem equivalence_equal :
    Equivalence fun x y : { x : Extension // x.Valid } => x.1.equal y.1 = true := by
  refine ⟨fun x => equal_of_perm rfl (.refl _), fun {x y} h => ?_, fun {x y z} h h' => ?_⟩
  · obtain ⟨harity, hperm⟩ := (equal_iff_perm x.2).mp h
    exact equal_of_perm harity.symm hperm.symm
  · obtain ⟨harity, hperm⟩ := (equal_iff_perm x.2).mp h
    obtain ⟨harity', hperm'⟩ := (equal_iff_perm y.2).mp h'
    exact equal_of_perm (harity.trans harity') (hperm.trans hperm')

/-- The order of tuples, and how often each is listed, does not matter. -/
theorem equal_ofTuples (hmem : ∀ t, t ∈ tuples ↔ t ∈ tuples')
    (hlen : ∀ t ∈ tuples, t.length = arity) :
    ∃ x y, ofTuples arity tuples = .ok x ∧ ofTuples arity tuples' = .ok y ∧ x.equal y = true := by
  have hx := ofTuples_eq_ok_iff.mpr ⟨hlen, rfl⟩
  have hy := ofTuples_eq_ok_iff.mpr ⟨fun t ht => hlen t ((hmem t).mpr ht), rfl⟩
  have hequal := equal_iff (Obtained.ofTuples hx).valid (Obtained.ofTuples hy).valid
  refine ⟨_, _, hx, hy, hequal.mpr ⟨?_, contains_congr_iff.mpr fun t => ?_⟩⟩
  · rw [arity_pushAll, arity_pushAll]
  · rw [mem_rows_pushAll, mem_rows_pushAll, hmem t]

/-! ## What equal extensions share -/

/-- Whether two extensions answer alike: which tuples they hold, which pairs each inducer accepts
over them, and which pairs the guards let in beside their rows. -/
structure Alike (x y : Extension) : Prop where
  contains : ∀ t, x.contains t = y.contains t
  holds : ∀ (rule : Inducer) a c, rule.holds x a c = rule.holds y a c
  induces : ∀ (ps : PropertySet) a c, ps.induces a c x = ps.induces a c y
  checkInsert : ∀ (ps : PropertySet) relation a c,
    ps.checkInsert relation a c x = ps.checkInsert relation a c y
  isAntisymmetric : x.isAntisymmetric = y.isAntisymmetric

theorem edge_congr (h : ∀ t, t ∈ x.rows ↔ t ∈ y.rows) : x.Edge = y.Edge := by
  funext a c
  exact propext (h [a, c])

/-- The search for a chain goes through the rows in their order, but what it finds does not depend
on the order. -/
theorem reachable_congr (hx : x.Valid) (hy : y.Valid) (harity : x.arity = y.arity)
    (h : ∀ t, t ∈ x.rows ↔ t ∈ y.rows) (a c : Atom) : x.reachable a c = y.reachable a c := by
  by_cases hbinary : x.arity = 2
  · have hbinary' : y.arity = 2 := harity ▸ hbinary
    rw [Bool.eq_iff_iff, reachable_iff hbinary (hx.length_two hbinary),
      reachable_iff hbinary' (hy.length_two hbinary'), edge_congr h]
  · rw [reachable_of_arity_ne hbinary, reachable_of_arity_ne (harity ▸ hbinary)]

theorem isAntisymmetric_congr (hperm : x.rows.Perm y.rows) (harity : x.arity = y.arity)
    (hcontains : ∀ t, x.contains t = y.contains t) : x.isAntisymmetric = y.isAntisymmetric := by
  unfold isAntisymmetric
  rw [harity, funext hcontains, hperm.all_eq]

theorem alike_of_equal (hx : x.Valid) (hy : y.Valid) (h : x.equal y = true) : x.Alike y := by
  obtain ⟨harity, hperm⟩ := (equal_iff_perm hx).mp h
  have hmem : ∀ t, t ∈ x.rows ↔ t ∈ y.rows := fun t => hperm.mem_iff
  have hcontains := contains_congr_iff.mpr hmem
  have hholds : ∀ (rule : Inducer) a c, rule.holds x a c = rule.holds y a c := by
    intro rule a c
    cases rule with
    | reflexive => rfl
    | symmetric => exact hcontains [c, a]
    | transitive => exact reachable_congr hx hy harity hmem a c
  refine ⟨hcontains, hholds, fun ps a c => ?_, fun ps relation a c => ?_,
    isAntisymmetric_congr hperm harity hcontains⟩
  · simp only [PropertySet.induces, hholds]
  · simp only [PropertySet.checkInsert, PropertySet.brokenGuard?, hcontains]

/-- Extensions that the operations lead to are equal if they have the same arity and hold the same
tuples. So equality is an equivalence, and tuples make equal extensions in whatever order and
however often they are listed. Equal extensions answer alike. -/
theorem equality_of_obtained (hx : x.Obtained) (hy : y.Obtained) :
    (x.equal y = true ↔ x.arity = y.arity ∧ ∀ t, x.contains t = y.contains t) ∧
    Equivalence (fun x y : { x : Extension // x.Obtained } => x.1.equal y.1 = true) ∧
    (∀ arity tuples tuples', (∀ t, t ∈ tuples ↔ t ∈ tuples') →
      (∀ t ∈ tuples, t.length = arity) →
      ∃ x y, ofTuples arity tuples = .ok x ∧ ofTuples arity tuples' = .ok y ∧
        x.equal y = true) ∧
    (x.equal y = true → x.Alike y) := by
  refine ⟨equal_iff hx.valid hy.valid, ?_, fun arity tuples tuples' => equal_ofTuples,
    alike_of_equal hx.valid hy.valid⟩
  exact equivalence_equal.comap fun x : { x : Extension // x.Obtained } => ⟨x.1, x.2.valid⟩

/-- The flights, listed in another order and one of them twice. -/
theorem equality_of_obtained_transitFlight :
    ∃ y, ofTuples 2 [[.text "oslo", .text "alta"], [.text "bergen", .text "oslo"],
        [.text "oslo", .text "alta"]] = .ok y ∧
      (Session.transit.store.rows (.base Session.transitFlight)).Obtained ∧ y.Obtained ∧
      (Session.transit.store.rows (.base Session.transitFlight)).rows ≠ y.rows ∧
      (Session.transit.store.rows (.base Session.transitFlight)).equal y = true ∧
      (Session.transit.store.rows (.base Session.transitFlight)).Alike y := by
  have hreached : Session.transit.Reached := Session.reached_run .empty Session.transitRequests
  have hx := Obtained.rows hreached (.base Session.holds_transitFlight)
  have hlisted : ofTuples 2 [[.text "oslo", .text "alta"], [.text "bergen", .text "oslo"],
      [.text "oslo", .text "alta"]] =
        .ok ⟨2, [[.text "oslo", .text "alta"], [.text "bergen", .text "oslo"]]⟩ := rfl
  have hy := Obtained.ofTuples hlisted
  obtain ⟨-, -, -, halike⟩ := equality_of_obtained hx hy
  exact ⟨_, hlisted, hx, hy, by decide, rfl, halike rfl⟩

end RelationAlgebra.Extension
