import RelationAlgebra.Proofs.Unbound

/-!
# Composition and converse

What composition and converse hold of any binary relations. A composition walks its first operand.
It walks the second one too when it enumerates, and asks it for one row when it is tested, since
both ends are known then. So it enumerates the pairs that rows of both operands link, and lists the
pairs that a row of the first operand and a listed pair of the second one link. A converse
enumerates the rows with their atoms exchanged, in their order, and lists the pairs whose exchange
is listed.
-/

namespace RelationAlgebra

/-- Two properties of pairs are the same if no other tuple has them and no pair tells them apart. -/
theorem Tuple.iff_of_pairs {P Q : Tuple → Prop} (hP : ∀ t, P t → t.length = 2)
    (hQ : ∀ t, Q t → t.length = 2) (h : ∀ a b, P [a, b] ↔ Q [a, b]) (t : Tuple) : P t ↔ Q t := by
  constructor
  · intro ht
    obtain ⟨a, b, rfl⟩ := List.length_eq_two.mp (hP t ht)
    exact (h a b).mp ht
  · intro ht
    obtain ⟨a, b, rfl⟩ := List.length_eq_two.mp (hQ t ht)
    exact (h a b).mpr ht

namespace Relation

variable {id : Nat} {registry : String} {q r : Relation}

/-- A binary relation with its slots unbound is a plain binary operand. -/
theorem isPlainBinary_identityView (h : r.arity = 2) : r.identityView.IsPlainBinary :=
  ⟨h, by simp [identityView, Slots.isIdentity, Slots.identity]⟩

theorem derive_composition (hq : q.arity = 2) (hr : r.arity = 2) :
    derive id .composition [q.identityView, r.identityView] registry =
      .ok (.composition id q r) := by
  have hq' : binaryOperand .composition q.identityView = .ok q :=
    binaryOperand_eq_ok_iff.mpr ⟨isPlainBinary_identityView hq, rfl⟩
  have hr' : binaryOperand .composition r.identityView = .ok r :=
    binaryOperand_eq_ok_iff.mpr ⟨isPlainBinary_identityView hr, rfl⟩
  simp only [derive, hq', hr']
  rfl

theorem derive_converse (hr : r.arity = 2) :
    derive id .converse [r.identityView] registry = .ok (.converse id r) := by
  have hr' : binaryOperand .converse r.identityView = .ok r :=
    binaryOperand_eq_ok_iff.mpr ⟨isPlainBinary_identityView hr, rfl⟩
  simp only [derive, hr']
  rfl

end Relation

namespace Store

variable {s : Store} {id : Nat} {q r : Relation} {t : Tuple} {a b c : Atom} {α : Assignment}
  {ν : Valuation}

/-- Whether all rows of a relation are pairs. -/
def Paired (s : Store) (r : Relation) : Prop := ∀ t ∈ (s.rows r).rows, t.length = 2

/-- Every binary relation over a valid store holds pairs, and lists the pairs that it holds. -/
theorem Built.paired (hs : s.Valid) (h : s.Built r) (harity : r.arity = 2) : s.Paired r := by
  intro t ht
  rw [(h.regular hs).length t ht, harity]

/-! ## Composition -/

theorem proper_compositionViews (hq : s.Paired q) (hr : s.Paired r) :
    ∀ o ∈ (Relation.compositionViews q r).map s.readBound, Reading.Proper o := by
  simp only [Relation.compositionViews, List.map_cons, List.map_nil, List.forall_mem_cons]
  exact ⟨fun t ht => (hq t ht).symm, fun t ht => (hr t ht).symm, by simp⟩

/-- The first operand is walked over; the second is looked up if the last column is known already,
and walked over otherwise. -/
theorem reaches_compositionViews (hq : s.Paired q) (hr : s.Paired r)
    (hmiddle : ¬ α.Assigns (.index 1)) :
    Reading.Reaches ((Relation.compositionViews q r).map s.readBound) α ν ↔
      α.Within ν ∧ [ν (.index 0), ν (.index 1)] ∈ (s.rows q).rows ∧
        ((α.Assigns (.index 2) ∧ (s.read r).lists [ν (.index 1), ν (.index 2)] = true) ∨
          (¬ α.Assigns (.index 2) ∧ [ν (.index 1), ν (.index 2)] ∈ (s.rows r).rows)) := by
  set first : Bound Reading := ⟨s.read q, [.var (.index 0), .var (.index 1)]⟩
  set second : Bound Reading := ⟨s.read r, [.var (.index 1), .var (.index 2)]⟩
  set known : Var → Prop := fun v => α.Assigns v ∨ .var v ∈ first.slots
  -- the first operand is walked, as the middle is not known before it
  have hopen : ¬ first.slots.Settled α.Assigns := fun h =>
    hmiddle (h (.var (.index 1)) (by simp [first]))
  -- the second one is asked for a row if the far end is known, and walked otherwise
  have hsettled : second.slots.Settled known ↔ α.Assigns (.index 2) := by
    simp [second, known, first, Slots.Settled, Binding.Settled]
  have hfirst : Reading.Meets α.Assigns first ν ↔
      [ν (.index 0), ν (.index 1)] ∈ (s.rows q).rows :=
    (Reading.meets_of_open hopen).trans
      (Reading.hasRow_vars (s.read q) [.index 0, .index 1])
  have hsecond : Reading.Meets known second ν ↔
      (α.Assigns (.index 2) ∧ (s.read r).lists [ν (.index 1), ν (.index 2)] = true) ∨
        (¬ α.Assigns (.index 2) ∧ [ν (.index 1), ν (.index 2)] ∈ (s.rows r).rows) :=
    or_congr
      (and_congr hsettled (Reading.listsRow_vars (s.read r) [.index 1, .index 2]))
      (and_congr (not_congr hsettled)
        (Reading.hasRow_vars (s.read r) [.index 1, .index 2]))
  rw [Reading.reaches_iff_meetAll (proper_compositionViews hq hr), ← hfirst, ← hsecond]
  exact and_congr_right fun _ => and_congr_right fun _ => and_iff_left trivial

/-- A pair is linked by the value of the middle variable. -/
theorem exists_linked_iff {T U : Atom → Atom → Prop} :
    (∃ ν : Valuation, (T (ν (.index 0)) (ν (.index 1)) ∧ U (ν (.index 1)) (ν (.index 2))) ∧
        [a, c] = Relation.compositionOutput.map ν) ↔
      ∃ b, T a b ∧ U b c := by
  constructor
  · rintro ⟨ν, ⟨hT, hU⟩, ht⟩
    obtain ⟨rfl, rfl⟩ : a = ν (.index 0) ∧ c = ν (.index 2) := by
      simpa [Relation.compositionOutput] using ht
    exact ⟨_, hT, hU⟩
  · rintro ⟨b, hT, hU⟩
    exact ⟨fun v => if v = .index 0 then a else if v = .index 1 then b else c,
      ⟨by simpa using hT, by simpa using hU⟩, by simp [Relation.compositionOutput]⟩

/-- A composition enumerates the pairs that some middle atom links. -/
theorem mem_rows_composition (hq : s.Paired q) (hr : s.Paired r) :
    [a, c] ∈ (s.rows (.composition id q r)).rows ↔
      ∃ b, [a, b] ∈ (s.rows q).rows ∧ [b, c] ∈ (s.rows r).rows := by
  rw [rows, read_composition, Reading.mem_rows_join (proper_compositionViews hq hr)
    fun x hx => exists_readBound (exists_of_mem_compositionOutput hx)]
  simp only [reaches_compositionViews hq hr (Assignment.not_assigns_nil _),
    Assignment.not_assigns_nil, Assignment.within_nil, false_and, not_false_eq_true, true_and,
    false_or]
  exact exists_linked_iff (T := fun a b => [a, b] ∈ (s.rows q).rows)
    (U := fun b c => [b, c] ∈ (s.rows r).rows)

theorem paired_composition (hq : s.Paired q) (hr : s.Paired r) :
    s.Paired (.composition id q r) := by
  intro t ht
  rw [rows, read_composition, Reading.mem_rows_join (proper_compositionViews hq hr)
    fun x hx => exists_readBound (exists_of_mem_compositionOutput hx)] at ht
  obtain ⟨ν, -, rfl⟩ := ht
  rfl

/-- A composition lists the pairs that a row of the first relation and a pair that the second one
lists link. -/
theorem lists_composition_iff (hq : s.Paired q) (hr : s.Paired r) :
    (s.read (.composition id q r)).lists [a, c] = true ↔
      ∃ b, [a, b] ∈ (s.rows q).rows ∧ (s.read r).lists [b, c] = true := by
  have hlen : [a, c].length = Relation.compositionOutput.length := rfl
  have hmiddle : ¬ (Assignment.ofOutput Relation.compositionOutput [a, c]).Assigns (.index 1) := by
    rw [Assignment.assigns_ofOutput hlen]
    decide
  have hend : (Assignment.ofOutput Relation.compositionOutput [a, c]).Assigns (.index 2) := by
    rw [Assignment.assigns_ofOutput hlen]
    decide
  rw [read_composition, Reading.lists_join_iff nodup_compositionOutput
    (proper_compositionViews hq hr), ← exists_linked_iff (T := fun a b => [a, b] ∈ (s.rows q).rows)
      (U := fun b c => (s.read r).lists [b, c] = true)]
  refine exists_congr fun ν => and_congr_left fun ht => ?_
  have hwithin := (Assignment.within_ofOutput nodup_compositionOutput hlen).mpr ht
  rw [reaches_compositionViews hq hr hmiddle]
  simp [hend, hwithin]

theorem length_of_lists_composition (h : (s.read (.composition id q r)).lists t = true) :
    t.length = 2 := by
  rw [read_composition, Reading.join, Reading.lists_derived] at h
  exact h.1

/-- A composition of binary tables is a binary table. -/
theorem Tabular.composition (hq : s.Tabular 2 q) (hr : s.Tabular 2 r) :
    s.Tabular 2 (.composition id q r) := by
  have hpaired : s.Paired (.composition id q r) := paired_composition hq.length hr.length
  refine ⟨rfl, hpaired,
    Tuple.iff_of_pairs (fun _ => length_of_lists_composition) hpaired fun a c => ?_⟩
  simp only [lists_composition_iff hq.length hr.length, hr.exact _]
  exact (mem_rows_composition hq.length hr.length).symm

/-! ## Converse -/

/-- Each pair, matched with the two variables of a converse, gives the pair with its atoms
exchanged. -/
theorem filterMap_project?_converse {rows : List Tuple} (hrows : ∀ t ∈ rows, t.length = 2) :
    (rows.filterMap (Assignment.unify [] [.var (.index 0), .var (.index 1)])).filterMap
      (fun α => α.project? Relation.converseOutput) = rows.map List.reverse := by
  rw [List.filterMap_filterMap, ← List.filterMap_eq_map]
  refine List.filterMap_congr fun row hrow => ?_
  obtain ⟨a, b, rfl⟩ := List.length_eq_two.mp (hrows row hrow)
  rfl

/-- The rows of a converse are the rows with their atoms exchanged, in the order of these rows. -/
theorem rows_converse (hr : s.Paired r) :
    (s.rows (.converse id r)).rows = ((s.rows r).rows.map List.reverse).eraseDups := by
  have hrows : s.rows (.converse id r) =
      (Reading.solutions ((Relation.converseViews r).map s.readBound) []).foldl
        (Reading.emit Relation.converseOutput) (.empty 2) := Reading.search_yield _ _ _ _
  have hsolutions : Reading.solutions ((Relation.converseViews r).map s.readBound) [] =
      (s.rows r).rows.filterMap (Assignment.unify [] [.var (.index 0), .var (.index 1)]) :=
    List.flatMap_singleton' _
  rw [hrows, hsolutions, Extension.foldl_eq_pushAll Reading.emit_eq_pushAll,
    filterMap_project?_converse hr, Extension.rows_pushAll_empty]

theorem mem_rows_converse (hr : s.Paired r) :
    [a, b] ∈ (s.rows (.converse id r)).rows ↔ [b, a] ∈ (s.rows r).rows := by
  rw [rows_converse hr, List.mem_eraseDups, List.mem_map]
  constructor
  · rintro ⟨row, hrow, heq⟩
    have hab : row = [b, a] := List.reverse_eq_iff.mp heq
    exact hab ▸ hrow
  · exact fun h => ⟨[b, a], h, rfl⟩

theorem paired_converse (hr : s.Paired r) : s.Paired (.converse id r) := by
  intro t ht
  rw [rows_converse hr, List.mem_eraseDups, List.mem_map] at ht
  obtain ⟨row, hrow, rfl⟩ := ht
  rw [List.length_reverse, hr row hrow]

theorem proper_converseViews (hr : s.Paired r) :
    ∀ o ∈ (Relation.converseViews r).map s.readBound, Reading.Proper o := by
  simp only [Relation.converseViews, List.map_cons, List.map_nil, List.forall_mem_cons]
  exact ⟨fun t ht => (hr t ht).symm, by simp⟩

theorem reaches_converseViews (hr : s.Paired r) (hfirst : α.Assigns (.index 0))
    (hsecond : α.Assigns (.index 1)) :
    Reading.Reaches ((Relation.converseViews r).map s.readBound) α ν ↔
      α.Within ν ∧ (s.read r).lists [ν (.index 0), ν (.index 1)] = true := by
  set operand : Bound Reading := ⟨s.read r, [.var (.index 0), .var (.index 1)]⟩
  -- both atoms are known, so the operand is asked for one row
  have hsettled : operand.slots.Settled α.Assigns := by
    simp [operand, Slots.Settled, Binding.Settled, hfirst, hsecond]
  have hmeets : Reading.Meets α.Assigns operand ν ↔
      (s.read r).lists [ν (.index 0), ν (.index 1)] = true :=
    (Reading.meets_of_settled hsettled).trans
      (Reading.listsRow_vars (s.read r) [.index 0, .index 1])
  rw [Reading.reaches_iff_meetAll (proper_converseViews hr), ← hmeets]
  exact and_congr_right fun _ => and_iff_left trivial

/-- A converse lists a pair if its operand lists the swapped one, induced pairs left out. -/
theorem lists_converse_iff (hr : s.Paired r) :
    (s.read (.converse id r)).lists [a, b] = true ↔ (s.read r).lists [b, a] = true := by
  have hlen : [a, b].length = Relation.converseOutput.length := rfl
  have hreaches : ∀ ν, [a, b] = Relation.converseOutput.map ν →
      (Reading.Reaches ((Relation.converseViews r).map s.readBound)
          (.ofOutput Relation.converseOutput [a, b]) ν ↔ (s.read r).lists [b, a] = true) := by
    intro ν ht
    have hwithin := (Assignment.within_ofOutput nodup_converseOutput hlen).mpr ht
    obtain ⟨rfl, rfl⟩ : a = ν (.index 1) ∧ b = ν (.index 0) := by
      simpa [Relation.converseOutput] using ht
    rw [reaches_converseViews hr ((Assignment.assigns_ofOutput hlen).mpr (by decide))
      ((Assignment.assigns_ofOutput hlen).mpr (by decide)), and_iff_right hwithin]
  rw [read_converse, Reading.lists_join_iff nodup_converseOutput (proper_converseViews hr)]
  constructor
  · rintro ⟨ν, hν, ht⟩
    exact (hreaches ν ht).mp hν
  · intro h
    obtain ⟨ν, ht⟩ := Tuple.exists_eq_map nodup_converseOutput hlen
    exact ⟨ν, (hreaches ν ht).mpr h, ht⟩

theorem length_of_lists_converse (h : (s.read (.converse id r)).lists t = true) :
    t.length = 2 := by
  rw [read_converse, Reading.join, Reading.lists_derived] at h
  exact h.1

/-- The converse of a binary table is a binary table. -/
theorem Tabular.converse (hr : s.Tabular 2 r) : s.Tabular 2 (.converse id r) := by
  have hpaired : s.Paired (.converse id r) := paired_converse hr.length
  refine ⟨rfl, hpaired,
    Tuple.iff_of_pairs (fun _ => length_of_lists_converse) hpaired fun a b => ?_⟩
  rw [lists_converse_iff hr.length, hr.exact]
  exact (mem_rows_converse hr.length).symm

end Store

end RelationAlgebra
