import RelationAlgebra.Proofs.Reading
import RelationAlgebra.Proofs.Session

/-!
# Membership and enumeration

Every relation over a valid store lists the rows that it enumerates (`Store.Built.regular`), so every
enumerated row is accepted, however the relation is nested. The converse fails for unions with an
operand that leaves an output column open. Where no such union occurs outside a complement, a
relation lists exactly its rows (`Store.Built.exact`), and for a derived relation accepting is
listing.
-/

namespace RelationAlgebra

/-- Whether each of several operands mentions every output column. -/
def Bound.Cover {α : Type} (operands : List (Bound α)) : Prop :=
  ∀ o ∈ operands, ∀ x ∈ correspondence operands, .var x ∈ o.slots

instance {α : Type} (operands : List (Bound α)) : Decidable (Bound.Cover operands) :=
  inferInstanceAs (Decidable (∀ o ∈ operands, ∀ x ∈ Bound.correspondence operands, _ ∈ o.slots))

namespace Relation

mutual

/-- Whether the operands of every union mention all output columns of the union. What a complement
is taken of may be anything. -/
def covered : Relation → Bool
  | base _ => true
  | union _ operands => decide (Bound.Cover operands) && coveredAll operands
  | intersection _ operands => coveredAll operands
  | complement .. => true
  | composition _ first second => first.covered && second.covered
  | converse _ relation => relation.covered

/-- Whether the relation of an operand is covered. -/
def coveredOperand : Bound Relation → Bool
  | ⟨relation, _⟩ => relation.covered

/-- Whether the relations of all operands are covered. -/
def coveredAll : List (Bound Relation) → Bool
  | [] => true
  | operand :: operands => coveredOperand operand && coveredAll operands

end

theorem coveredAll_iff {operands : List (Bound Relation)} :
    coveredAll operands = true ↔ ∀ v ∈ operands, v.relation.covered = true := by
  induction operands with
  | nil => simp [coveredAll]
  | cons operand operands ih =>
    cases operand
    simp [coveredAll, coveredOperand, ih]

end Relation

namespace Store

variable {s : Store} {r : Relation} {t : Tuple} {views : List View} {output : List Var}

@[simp]
theorem readBound_eq (s : Store) (v : View) : s.readBound v = ⟨s.read v.relation, v.slots⟩ := by
  cases v
  rw [readBound]

/-! ## Readings of derived relations -/

theorem read_union (s : Store) (id : Nat) (views : List View) :
    s.read (.union id views) = .union (Bound.correspondence views) (views.map s.readBound) := by
  rw [read, readAll_eq_map]

theorem read_intersection (s : Store) (id : Nat) (views : List View) :
    s.read (.intersection id views) =
      .join (Bound.correspondence views) (views.map s.readBound) := by
  rw [read, readAll_eq_map]

/-- A complement reads its operand beside the rows that it is taken in. -/
theorem read_complement (s : Store) (id : Nat) (v : View) (registry : String) :
    s.read (.complement id v registry) =
      .complement (Bound.correspondence [v]) (s.ambient registry v.relation.arity v.relation.id)
        (s.readBound v) := by rw [read]

/-- A composition is the join of its two operands, linked by their middle variable. -/
theorem read_composition (s : Store) (id : Nat) (first second : Relation) :
    s.read (.composition id first second) =
      .join Relation.compositionOutput
        ((Relation.compositionViews first second).map s.readBound) := rfl

theorem read_converse (s : Store) (id : Nat) (relation : Relation) :
    s.read (.converse id relation) =
      .join Relation.converseOutput ((Relation.converseViews relation).map s.readBound) := rfl

/-- A derived relation accepts what it lists; only a stored one adds induced pairs. -/
theorem accepts_eq_lists (hr : r.isDerived = true) : s.accepts r t = (s.read r).lists t := by
  cases r with
  | base => cases hr
  | union | intersection | complement | composition | converse => rfl

/-! ## Listing the rows -/

/-- Whether the rows of a relation have its arity and are listed. -/
structure Regular (s : Store) (r : Relation) : Prop where
  length : ∀ t ∈ (s.rows r).rows, t.length = r.arity
  sound : (s.read r).Sound

/-- What a derived relation lists has the length of its output, so its rows have. -/
theorem Regular.of_derived {rows : Thunk Extension} {witnessed : Assignment → Bool}
    (hr : s.read r = .derived output rows witnessed) (harity : r.arity = output.length)
    (hsound : (s.read r).Sound) : s.Regular r := by
  refine ⟨fun t ht => ?_, hsound⟩
  have hlists := hsound t ht
  rw [hr, Reading.lists_derived] at hlists
  rw [harity]
  exact hlists.1

/-- A bound relation is a proper operand if its rows have the arity of the relation. -/
theorem BuiltView.proper {v : View} (hv : s.BuiltView v) (h : s.Regular v.relation) :
    Reading.Proper (s.readBound v) := by
  rw [readBound_eq]
  intro row hrow
  rw [hv.slots, h.length row hrow]

/-- Operands of regular relations list every row that they enumerate, so looking a row up loses
none. -/
theorem proper_and_sound (hviews : ∀ v ∈ views, s.BuiltView v ∧ s.Regular v.relation) :
    ∀ o ∈ views.map s.readBound, Reading.Proper o ∧ o.relation.Sound := by
  rw [List.forall_mem_map]
  intro v hv
  obtain ⟨hbuilt, hregular⟩ := hviews v hv
  exact ⟨hbuilt.proper hregular, by simpa using hregular.sound⟩

theorem exists_readBound {x : Var} (h : ∃ v ∈ views, .var x ∈ v.slots) :
    ∃ o ∈ views.map s.readBound, .var x ∈ o.slots := by
  obtain ⟨v, hv, hx⟩ := h
  exact ⟨s.readBound v, List.mem_map_of_mem hv, by simpa using hx⟩

/-- A join of regular operands is regular if every output column is bound in some operand. -/
theorem Regular.join (hn : output.Nodup) (hout : ∀ x ∈ output, ∃ v ∈ views, .var x ∈ v.slots)
    (hr : s.read r = .join output (views.map s.readBound)) (harity : r.arity = output.length)
    (hviews : ∀ v ∈ views, s.BuiltView v ∧ s.Regular v.relation) : s.Regular r := by
  refine .of_derived hr harity ?_
  rw [hr]
  exact Reading.sound_join hn (proper_and_sound hviews) fun x hx => exists_readBound (hout x hx)

theorem nodup_compositionOutput : Relation.compositionOutput.Nodup := by decide

theorem nodup_converseOutput : Relation.converseOutput.Nodup := by decide

/-- Both output columns of a composition are bound: the one in the first operand, the other in the
second. -/
theorem exists_of_mem_compositionOutput {first second : Relation} {x : Var}
    (hx : x ∈ Relation.compositionOutput) :
    ∃ v ∈ Relation.compositionViews first second, .var x ∈ v.slots := by
  rcases List.mem_pair.mp hx with rfl | rfl <;> simp [Relation.compositionViews]

theorem exists_of_mem_converseOutput {relation : Relation} {x : Var}
    (hx : x ∈ Relation.converseOutput) :
    ∃ v ∈ Relation.converseViews relation, .var x ∈ v.slots := by
  rcases List.mem_pair.mp hx with rfl | rfl <;> simp [Relation.converseViews]

/-- A complement lists exactly its rows, whatever its operand does. -/
theorem Valid.exact_complement {id : Nat} {v : View} {registry : String} (hs : s.Valid)
    (hv : s.BuiltView v) : (s.read (.complement id v registry)).Exact := by
  rw [read_complement]
  refine Reading.exact_complement Bound.nodup_correspondence ?_ ?_
  · intro row hrow
    rw [readBound_eq, hv.slots, hs.length_of_mem_ambient hrow]
  · intro x hx
    simpa using Bound.mem_correspondence.mp hx

/-- Every relation over a valid store lists its rows. -/
theorem Built.regular (hs : s.Valid) (h : s.Built r) : s.Regular r := by
  refine Built.induction ?base ?union ?intersection ?complement ?composition ?converse h
  case base =>
    intro b hb
    exact ⟨fun t ht => hs.length_of_mem_extension hb ht, fun t ht => Extension.contains_iff.mpr ht⟩
  case union =>
    intro id views ih
    refine .of_derived (read_union s id views) rfl ?_
    rw [read_union]
    exact Reading.sound_union Bound.nodup_correspondence (proper_and_sound ih)
  case intersection =>
    intro id views ih
    exact .join Bound.nodup_correspondence (fun _ => Bound.mem_correspondence.mp)
      (read_intersection s id views) rfl ih
  case complement =>
    intro id v registry hv _
    exact .of_derived (by rw [read_complement, Reading.complement]) rfl (hs.exact_complement hv).sound
  case composition =>
    intro id first second ih
    exact .join nodup_compositionOutput (fun _ => exists_of_mem_compositionOutput)
      (read_composition s id first second) rfl ih
  case converse =>
    intro id relation ih
    exact .join nodup_converseOutput (fun _ => exists_of_mem_converseOutput)
      (read_converse s id relation) rfl ih

/-! ## Listing nothing else -/

/-- Operands of exact relations list no row that they do not enumerate. -/
theorem proper_and_exact (hs : s.Valid) (hviews : ∀ v ∈ views, s.BuiltView v)
    (hexact : ∀ v ∈ views, (s.read v.relation).Exact) :
    ∀ o ∈ views.map s.readBound, Reading.Proper o ∧ o.relation.Exact := by
  rw [List.forall_mem_map]
  intro v hv
  have hbuilt := hviews v hv
  exact ⟨hbuilt.proper (hbuilt.relation.regular hs), by simpa using hexact v hv⟩

/-- A join of exact operands is exact, since looking a row up and walking over the rows find the
same. -/
theorem exact_of_read_join (hn : output.Nodup)
    (hout : ∀ x ∈ output, ∃ v ∈ views, .var x ∈ v.slots)
    (hr : s.read r = .join output (views.map s.readBound))
    (ho : ∀ o ∈ views.map s.readBound, Reading.Proper o ∧ o.relation.Exact) :
    (s.read r).Exact := by
  rw [hr]
  exact Reading.exact_join hn ho fun x hx => exists_readBound (hout x hx)

theorem exact_intersection {id : Nat}
    (ho : ∀ o ∈ views.map s.readBound, Reading.Proper o ∧ o.relation.Exact) :
    (s.read (.intersection id views)).Exact :=
  exact_of_read_join Bound.nodup_correspondence (fun _ => Bound.mem_correspondence.mp)
    (read_intersection s id views) ho

/-- A relation over a valid store lists exactly its rows if its unions are covered. -/
theorem Built.exact (hs : s.Valid) (h : s.Built r) (hc : r.covered = true) :
    (s.read r).Exact := by
  have hoperands : ∀ {views : List View},
      (∀ v ∈ views, s.BuiltView v ∧ (v.relation.covered = true → (s.read v.relation).Exact)) →
      (∀ v ∈ views, v.relation.covered = true) →
      ∀ o ∈ views.map s.readBound, Reading.Proper o ∧ o.relation.Exact := fun ih hc =>
    proper_and_exact hs (fun v hv => (ih v hv).1) fun v hv => (ih v hv).2 (hc v hv)
  revert hc
  refine Built.induction ?base ?union ?intersection ?complement ?composition ?converse h
  case base =>
    intro b _ _ t
    exact Extension.contains_iff
  case union =>
    intro id views ih hc
    rw [Relation.covered, Bool.and_eq_true, decide_eq_true_eq, Relation.coveredAll_iff] at hc
    rw [read_union]
    refine Reading.exact_union Bound.nodup_correspondence (hoperands ih hc.2) ?_
    rw [List.forall_mem_map]
    intro v hv x hx
    simpa using hc.1 v hv x hx
  case intersection =>
    intro id views ih hc
    rw [Relation.covered, Relation.coveredAll_iff] at hc
    exact exact_intersection (hoperands ih hc)
  case complement =>
    intro id v registry hv _ _
    exact hs.exact_complement hv
  case composition =>
    intro id first second ih hc
    rw [Relation.covered, Bool.and_eq_true] at hc
    exact exact_of_read_join nodup_compositionOutput (fun _ => exists_of_mem_compositionOutput)
      (read_composition s id first second)
      (hoperands ih (by simp [Relation.compositionViews, hc]))
  case converse =>
    intro id relation ih hc
    rw [Relation.covered] at hc
    exact exact_of_read_join nodup_converseOutput (fun _ => exists_of_mem_converseOutput)
      (read_converse s id relation) (hoperands ih (by simp [Relation.converseViews, hc]))

/-- Membership and enumeration agree on every derived relation whose unions are covered. -/
theorem accepts_iff_mem_rows (hs : s.Reachable) (hr : s.Built r) (hd : r.isDerived = true)
    (hc : r.covered = true) (t : Tuple) :
    s.accepts r t = true ↔ t ∈ (s.rows r).rows := by
  rw [accepts_eq_lists hd]
  exact hr.exact hs.valid hc t

theorem accepts_iff_mem_rows_relative :
    ∃ r, Session.kinship.relation "relative" = .ok r ∧ r.isDerived = true ∧ r.covered = true ∧
      (Session.kinship.store.accepts r [.text "teresa", .text "ania"] = true ↔
        [.text "teresa", .text "ania"] ∈ (Session.kinship.store.rows r).rows) := by
  have hrelative : ∃ r, Session.kinship.relation "relative" = .ok r ∧ r.isDerived = true ∧
      r.covered = true := ⟨_, rfl, rfl, rfl⟩
  obtain ⟨r, hr, hd, hc⟩ := hrelative
  exact ⟨r, hr, hd, hc,
    accepts_iff_mem_rows Session.reachable_kinship (Session.built_kinship hr) hd hc _⟩

/-- A stored relation accepts its rows, and the pairs that a declared rule finds in them. -/
theorem accepts_base_iff {b : Base} :
    s.accepts (.base b) t = true ↔
      t.length = (s.extension b).arity ∧ (t ∈ (s.extension b).rows ∨
        ∃ a c, t = [a, c] ∧ b.properties.induces a c (s.extension b) = true) := by
  simp only [accepts, read, Reading.stored, Bool.and_eq_true, Bool.or_eq_true, beq_iff_eq,
    Extension.contains_iff]
  refine and_congr_right fun _ => or_congr_right ?_
  split
  next a c => simp
  next hne => simpa using fun a c h => absurd h (hne a c)

theorem Valid.accepts_of_mem_extension {b : Base} (hs : s.Valid)
    (ht : t ∈ (s.extension b).rows) : s.accepts (.base b) t = true :=
  accepts_base_iff.mpr ⟨(hs.valid_extension b).length t ht, Or.inl ht⟩

/-- Every enumerated row of every relation is accepted. -/
theorem accepts_of_mem_rows (hs : s.Reachable) (hr : s.Built r) (ht : t ∈ (s.rows r).rows) :
    s.accepts r t = true := by
  cases r with
  | base => exact hs.valid.accepts_of_mem_extension ht
  | union | intersection | complement | composition | converse =>
    exact (hr.regular hs.valid).sound t ht

theorem accepts_of_mem_rows_mutual :
    ∃ r, Session.kinship.relation "mutual" = .ok r ∧ r.covered = false ∧
      [.text "teresa", .text "ania"] ∈ (Session.kinship.store.rows r).rows ∧
      Session.kinship.store.accepts r [.text "teresa", .text "ania"] = true := by
  have hrow : ∃ r, Session.kinship.relation "mutual" = .ok r ∧ r.covered = false ∧
      [.text "teresa", .text "ania"] ∈ (Session.kinship.store.rows r).rows :=
    ⟨_, rfl, rfl, by decide⟩
  obtain ⟨r, hr, hc, ht⟩ := hrow
  exact ⟨r, hr, hc, ht, accepts_of_mem_rows Session.reachable_kinship (Session.built_kinship hr) ht⟩

end Store

end RelationAlgebra
