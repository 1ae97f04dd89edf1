import RelationAlgebra.Proofs.Union

/-!
# Exchanging the operands of an intersection

The operands of an intersection are asked in turn: an operand whose slots the operands before it
settle is looked up, any other is walked. So exchanging two operands exchanges which of them may be
looked up. That makes no difference where an operand lists exactly its rows. It does make one for an
operand that accepts more than it enumerates, and `intersection_comm_iff` says that this is the only
way in which the order matters.
-/

namespace RelationAlgebra

/-! ## Columns in another order -/

/-- The tuple with its columns brought into another order. -/
def Tuple.reorder (columns columns' : List Var) (t : Tuple) : Option Tuple :=
  Assignment.project? (.ofOutput columns t) columns'

section Columns

variable {columns columns' : List Var} {ν : Valuation} {t : Tuple}

/-- Reordering the values of a valuation reads them off in the new order. -/
theorem Tuple.reorder_map (hn : columns.Nodup) (hsub : ∀ v ∈ columns', v ∈ columns) :
    Tuple.reorder columns columns' (columns.map ν) = some (columns'.map ν) := by
  have hlen : (columns.map ν).length = columns.length := by simp
  refine Assignment.project?_eq_some ((Assignment.within_ofOutput hn hlen).mpr rfl) fun v hv => ?_
  exact (Assignment.assigns_ofOutput hlen).mpr (hsub v hv)

/-- Whether two extensions have the same rows, up to the order of their columns: each variable names
the same column in both. -/
def Extension.SameUpTo (x : Extension) (columns : List Var) (y : Extension)
    (columns' : List Var) : Prop :=
  ∀ t, t ∈ x.rows ↔ ∃ t' ∈ y.rows, t'.reorder columns' columns = some t

theorem Extension.sameUpTo_iff {x y : Extension} (hn : columns.Nodup) (hn' : columns'.Nodup)
    (hcolumns : ∀ v, v ∈ columns ↔ v ∈ columns')
    (hx : ∀ t ∈ x.rows, t.length = columns.length)
    (hy : ∀ t ∈ y.rows, t.length = columns'.length) :
    x.SameUpTo columns y columns' ↔
      ∀ ν : Valuation, columns.map ν ∈ x.rows ↔ columns'.map ν ∈ y.rows := by
  have hreorder : ∀ ν : Valuation,
      Tuple.reorder columns' columns (columns'.map ν) = some (columns.map ν) := fun ν =>
    Tuple.reorder_map hn' fun v => (hcolumns v).mp
  have hsame : ∀ ν : Valuation, columns'.map ν ∈ y.rows ↔
      ∃ t' ∈ y.rows, t'.reorder columns' columns = some (columns.map ν) := by
    intro ν
    constructor
    · exact fun h => ⟨_, h, hreorder ν⟩
    · rintro ⟨t', ht', heq⟩
      obtain ⟨μ, rfl⟩ := Tuple.exists_eq_map hn' (hy t' ht')
      -- the columns are the same in both, so `μ` and `ν` agree on all of them
      rw [hreorder, Option.some.injEq, List.map_inj_left] at heq
      have hmap : columns'.map μ = columns'.map ν :=
        List.map_congr_left fun v hv => heq v ((hcolumns v).mpr hv)
      exact hmap ▸ ht'
  constructor
  · exact fun h ν => (h _).trans (hsame ν).symm
  · intro h t
    constructor
    · intro ht
      obtain ⟨ν, rfl⟩ := Tuple.exists_eq_map hn (hx t ht)
      exact (hsame ν).mp ((h ν).mp ht)
    · rintro ⟨t', ht', heq⟩
      obtain ⟨ν, rfl⟩ := Tuple.exists_eq_map hn' (hy t' ht')
      rw [hreorder, Option.some.injEq] at heq
      exact heq ▸ (h ν).mpr ht'

end Columns

/-! ## Two operands asked in turn -/

/-- Settled slots leave one row to look up. -/
theorem Slots.Settled.fits_unique {slots : Slots} {known : Var → Prop} {ν : Valuation}
    {row row' : Tuple} (hs : slots.Settled known) (h : slots.Fits ν row)
    (h' : slots.Fits ν row') : row = row' := by
  induction h generalizing row' with
  | nil => exact (List.forall₂_nil_left_iff.mp h').symm
  | @cons b x slots row hb _ ih =>
    rw [Slots.Settled, List.forall_mem_cons] at hs
    cases h' with
    | @cons _ y _ row' hb' h' =>
      have hxy : x = y := by
        cases b with
        | var v => exact hb.symm.trans hb'
        | wildcard => exact hs.1.elim
        | literal a => exact hb.symm.trans hb'
      rw [hxy, ih hs.2 h']

theorem Slots.Settled.not_var_mem {slots : Slots} {v : Var}
    (h : slots.Settled fun _ => False) : .var v ∉ slots := fun hv => h _ hv

namespace Reading

variable {x y : Bound Reading} {ν : Valuation}

/-- Whether `y` is walked when it comes first, is looked up after `x`, and then lists a row that it
does not have beside a row of `x`. -/
structure Overreaches (x y : Bound Reading) (ν : Valuation) : Prop where
  settled : y.slots.Settled fun v => .var v ∈ x.slots
  open_first : ¬ y.slots.Settled fun _ => False
  hasRow : HasRow x ν
  listsRow : ListsRow y ν
  not_hasRow : ¬ HasRow y ν

/-- The first operand is walked over, and the second one meets what the first one settles. -/
theorem meetAll_pair :
    MeetAll ν (fun _ => False) [x, y] ↔
      Meets (fun _ => False) x ν ∧ Meets (fun v => .var v ∈ x.slots) y ν := by
  simp [MeetAll]

/-- Two operands go along in one order and not in the other just if the second one overreaches. -/
theorem overreaches_iff (hx : x.relation.Sound) :
    Overreaches x y ν ↔
      MeetAll ν (fun _ => False) [x, y] ∧ ¬ MeetAll ν (fun _ => False) [y, x] := by
  rw [meetAll_pair, meetAll_pair]
  constructor
  · intro h
    -- were `x` all literals, it would settle nothing for `y`
    have hopen : ¬ x.slots.Settled fun _ => False := fun hs =>
      h.open_first (h.settled.mono fun v hv => hs.not_var_mem hv)
    refine ⟨⟨Or.inr ⟨hopen, h.hasRow⟩, Or.inl ⟨h.settled, h.listsRow⟩⟩, ?_⟩
    rintro ⟨⟨hs, -⟩ | ⟨-, hrow⟩, -⟩
    · exact h.open_first hs
    · exact h.not_hasRow hrow
  · rintro ⟨⟨hfirst, hsecond⟩, hno⟩
    have hx' : Meets (fun v => .var v ∈ y.slots) x ν := hfirst.mono hx fun _ => False.elim
    have hnot : ¬ Meets (fun _ => False) y ν := fun h => hno ⟨h, hx'⟩
    rcases hsecond with ⟨hs, hlists⟩ | ⟨hs, hrow⟩
    · have hopen : ¬ y.slots.Settled fun _ => False := fun h => hnot (Or.inl ⟨h, hlists⟩)
      have hnorow : ¬ HasRow y ν := fun h => hnot (Or.inr ⟨hopen, h⟩)
      rcases hfirst with ⟨hliteral, -⟩ | ⟨-, hrow⟩
      · exact absurd (hs.mono fun v hv => hliteral.not_var_mem hv) hopen
      · exact ⟨hs, hopen, hrow, hlists, hnorow⟩
    · have hopen : ¬ y.slots.Settled fun _ => False := fun h =>
        hs (h.mono fun _ => False.elim)
      exact absurd (Or.inr ⟨hopen, hrow⟩) hnot

end Reading

namespace Store

variable {s : Store} {x y : View} {ν : Valuation} {id : Nat}

/-- Whether `y` is walked when it comes first, is looked up after `x`, and then accepts a row that
it does not enumerate, beside a row of `x`. -/
structure Overreaches (s : Store) (x y : View) (ν : Valuation) : Prop where
  settled : y.slots.Settled fun v => .var v ∈ x.slots
  open_first : ¬ y.slots.Settled fun _ => False
  derived : y.relation.isDerived = true
  exists_row : ∃ row ∈ (s.rows x.relation).rows, x.slots.Fits ν row
  exists_accepted : ∃ row, y.slots.Fits ν row ∧ s.accepts y.relation row = true ∧
    row ∉ (s.rows y.relation).rows

theorem overreaches_readBound_iff :
    Reading.Overreaches (s.readBound x) (s.readBound y) ν ↔ s.Overreaches x y ν := by
  rw [readBound_eq, readBound_eq]
  constructor
  · rintro ⟨hsettled, hopen, hrow, ⟨row, hfit, hlists⟩, hno⟩
    have hrows : row ∉ (s.rows y.relation).rows := fun h => hno ⟨row, h, hfit⟩
    have hderived : y.relation.isDerived = true := by
      cases hy : y.relation with
      | base b =>
        rw [hy] at hlists hrows
        exact absurd (Extension.contains_iff.mp hlists) hrows
      | union | intersection | complement | composition | converse => rfl
    exact ⟨hsettled, hopen, hderived, hrow, row, hfit, accepts_eq_lists hderived ▸ hlists, hrows⟩
  · rintro ⟨hsettled, hopen, hderived, hrow, row, hfit, haccepts, hrows⟩
    refine ⟨hsettled, hopen, hrow, ⟨row, hfit, accepts_eq_lists hderived ▸ haccepts⟩, ?_⟩
    rintro ⟨row', hrow', hfit'⟩
    -- settled slots fit one row only
    exact hrows (hsettled.fits_unique hfit' hfit ▸ hrow')

/-- Only an operand with an uncovered union accepts beside its rows. -/
theorem Overreaches.not_covered (hs : s.Valid) (hy : s.BuiltView y) (h : s.Overreaches x y ν) :
    y.relation.covered = false := by
  by_contra hc
  obtain ⟨row, -, haccepts, hrows⟩ := h.exists_accepted
  rw [accepts_eq_lists h.derived] at haccepts
  exact hrows ((hy.relation.exact hs (by simpa using hc) row).mp haccepts)

theorem proper_and_sound_pair (hs : s.Valid) (hx : s.BuiltView x) (hy : s.BuiltView y) :
    ∀ o ∈ [x, y].map s.readBound, Reading.Proper o ∧ o.relation.Sound := by
  refine proper_and_sound fun v hv => ?_
  rcases List.mem_pair.mp hv with rfl | rfl
  · exact ⟨hx, hx.relation.regular hs⟩
  · exact ⟨hy, hy.relation.regular hs⟩

/-- The rows of a binary intersection are the valuations that meet both operands in order. -/
theorem map_mem_rows_intersection_pair (hs : s.Valid) (hx : s.BuiltView x) (hy : s.BuiltView y) :
    (Bound.correspondence [x, y]).map ν ∈ (s.rows (.intersection id [x, y])).rows ↔
      Reading.MeetAll ν (fun _ => False) [s.readBound x, s.readBound y] := by
  rw [rows, read_intersection]
  refine Reading.map_mem_rows_join_iff (fun o ho => (proper_and_sound_pair hs hx hy o ho).1) ?_
  intro v
  rw [Bound.mem_correspondence]
  simp

theorem mem_correspondence_comm {v : Var} :
    v ∈ Bound.correspondence [x, y] ↔ v ∈ Bound.correspondence [y, x] := by
  simp [Bound.mem_correspondence, or_comm]

/-- The same operands in either order have the same columns. -/
theorem perm_correspondence_comm :
    (Bound.correspondence [x, y]).Perm (Bound.correspondence [y, x]) :=
  (List.perm_ext_iff_of_nodup Bound.nodup_correspondence Bound.nodup_correspondence).mpr
    fun _ => mem_correspondence_comm

theorem length_of_mem_intersection (hs : s.Valid) (hx : s.BuiltView x) (hy : s.BuiltView y)
    (id : Nat) :
    ∀ t ∈ (s.rows (.intersection id [x, y])).rows,
      t.length = (Bound.correspondence [x, y]).length := by
  have hregular : s.Regular (.intersection id [x, y]) := by
    refine .join Bound.nodup_correspondence (fun _ => Bound.mem_correspondence.mp)
      (read_intersection s id [x, y]) rfl fun v hv => ?_
    rcases List.mem_pair.mp hv with rfl | rfl
    · exact ⟨hx, hx.relation.regular hs⟩
    · exact ⟨hy, hy.relation.regular hs⟩
  exact hregular.length

/-- Two operands intersected in either order give the same rows, up to the order of the columns,
exactly if neither overreaches beside the other. -/
theorem sameUpTo_intersection_iff (hs : s.Valid) (hx : s.BuiltView x) (hy : s.BuiltView y)
    (id id' : Nat) :
    (s.rows (.intersection id [x, y])).SameUpTo (Bound.correspondence [x, y])
        (s.rows (.intersection id' [y, x])) (Bound.correspondence [y, x]) ↔
      ∀ ν, ¬ s.Overreaches x y ν ∧ ¬ s.Overreaches y x ν := by
  have hsame := Extension.sameUpTo_iff Bound.nodup_correspondence Bound.nodup_correspondence
    (fun _ => mem_correspondence_comm) (length_of_mem_intersection hs hx hy id)
    (length_of_mem_intersection hs hy hx id')
  have hsoundx : (s.readBound x).relation.Sound := by
    simpa using (hx.relation.regular hs).sound
  have hsoundy : (s.readBound y).relation.Sound := by
    simpa using (hy.relation.regular hs).sound
  rw [hsame]
  refine forall_congr' fun ν => ?_
  rw [map_mem_rows_intersection_pair hs hx hy, map_mem_rows_intersection_pair hs hy hx,
    ← overreaches_readBound_iff, ← overreaches_readBound_iff, Reading.overreaches_iff hsoundx,
    Reading.overreaches_iff hsoundy]
  tauto

/-- Any two bound relations have an intersection in either order, with the same columns in perhaps
another order. The two enumerate the same rows, up to the order of the columns, exactly if neither
operand overreaches beside the other. Relations whose unions are covered never do. -/
theorem intersection_comm_iff (hs : s.Reachable) (hx : s.BuiltView x) (hy : s.BuiltView y)
    (id id' : Nat) (registry : String) :
    ∃ r r', Relation.derive id .intersection [x, y] registry = .ok r ∧
      Relation.derive id' .intersection [y, x] registry = .ok r' ∧
      (Bound.correspondence [x, y]).Perm (Bound.correspondence [y, x]) ∧
      ((s.rows r).SameUpTo (Bound.correspondence [x, y]) (s.rows r') (Bound.correspondence [y, x]) ↔
        ∀ ν, ¬ s.Overreaches x y ν ∧ ¬ s.Overreaches y x ν) ∧
      (x.relation.covered = true → y.relation.covered = true →
        (s.rows r).SameUpTo (Bound.correspondence [x, y]) (s.rows r')
          (Bound.correspondence [y, x])) := by
  have hiff := sameUpTo_intersection_iff hs.valid hx hy id id'
  refine ⟨_, _, rfl, rfl, perm_correspondence_comm, hiff, fun hcx hcy => hiff.mpr fun ν => ?_⟩
  constructor
  · intro h
    have hno := h.not_covered hs.valid hy
    simp [hcy] at hno
  · intro h
    have hno := h.not_covered hs.valid hx
    simp [hcx] at hno

/-- The parents of somebody. -/
def kinshipParents : View :=
  ⟨.base Session.kinshipParent, [.var (.named "A"), .var (.named "B")]⟩

/-- The women in the first column, and the women in the second. -/
def kinshipFemales : List View :=
  [⟨.base Session.kinshipFemale, [.var (.named "A")]⟩,
   ⟨.base Session.kinshipFemale, [.var (.named "B")]⟩]

/-- The pairs with a woman on either side. -/
def kinshipEitherFemale : View :=
  ⟨.union 6 kinshipFemales, [.var (.named "A"), .var (.named "B")]⟩

theorem builtView_kinshipParents : Session.kinship.store.BuiltView kinshipParents :=
  ⟨.base Session.holds_kinshipParent, rfl⟩

theorem builtView_kinshipEitherFemale : Session.kinship.store.BuiltView kinshipEitherFemale := by
  have hreserves : Session.kinship.store.Reserves 6 := ⟨by decide, rfl⟩
  have hfemales : ∀ v ∈ kinshipFemales, Session.kinship.store.Built v.relation := by
    simp only [kinshipFemales, List.forall_mem_cons]
    have hfemale := Built.base Session.holds_kinshipFemale
    exact ⟨hfemale, hfemale, by simp⟩
  have hslots : ∀ v ∈ kinshipFemales, v.slots.length = v.relation.arity := by
    simp only [kinshipFemales, List.forall_mem_cons]
    exact ⟨rfl, rfl, by simp⟩
  have hderive : Relation.derive 6 .union kinshipFemales "main" =
      .ok (.union 6 kinshipFemales) := rfl
  exact ⟨.derive hreserves hfemales hslots hderive, rfl⟩

theorem intersection_comm_iff_kinship :
    ∃ r r', Relation.derive 7 .intersection [kinshipParents, kinshipEitherFemale] "main" = .ok r ∧
      Relation.derive 8 .intersection [kinshipEitherFemale, kinshipParents] "main" = .ok r' ∧
      (Bound.correspondence [kinshipParents, kinshipEitherFemale]).Perm
        (Bound.correspondence [kinshipEitherFemale, kinshipParents]) ∧
      ((Session.kinship.store.rows r).SameUpTo
          (Bound.correspondence [kinshipParents, kinshipEitherFemale])
          (Session.kinship.store.rows r')
          (Bound.correspondence [kinshipEitherFemale, kinshipParents]) ↔
        ∀ ν, ¬ Session.kinship.store.Overreaches kinshipParents kinshipEitherFemale ν ∧
          ¬ Session.kinship.store.Overreaches kinshipEitherFemale kinshipParents ν) ∧
      (kinshipParents.relation.covered = true → kinshipEitherFemale.relation.covered = true →
        (Session.kinship.store.rows r).SameUpTo
          (Bound.correspondence [kinshipParents, kinshipEitherFemale])
          (Session.kinship.store.rows r')
          (Bound.correspondence [kinshipEitherFemale, kinshipParents])) :=
  intersection_comm_iff Session.reachable_kinship builtView_kinshipParents
    builtView_kinshipEitherFemale 7 8 "main"

/-- Exchanging the operands of an intersection does not always give the same rows: beside the
parents with a woman on either side, the pairs of a woman and anybody, asked first, give no row at
all. -/
theorem not_forall_intersection_comm :
    ¬ ∀ (s : Store) (x y : View) (id id' : Nat) (registry : String) (r r' : Relation),
      s.Reachable → s.BuiltView x → s.BuiltView y →
      Relation.derive id .intersection [x, y] registry = .ok r →
      Relation.derive id' .intersection [y, x] registry = .ok r' →
      (s.rows r).SameUpTo (Bound.correspondence [x, y]) (s.rows r')
        (Bound.correspondence [y, x]) := by
  intro h
  have hsame := h Session.kinship.store kinshipParents kinshipEitherFemale 7 8 "main" _ _
    Session.reachable_kinship builtView_kinshipParents builtView_kinshipEitherFemale rfl rfl
  obtain ⟨t', ht', -⟩ := (hsame [.text "teresa", .text "piotr"]).mp (by decide)
  have hempty : (Session.kinship.store.rows
      (.intersection 8 [kinshipEitherFemale, kinshipParents])).rows = [] := by decide
  rw [hempty] at ht'
  cases ht'

end Store

end RelationAlgebra
