import RelationAlgebra.Proofs.Atomicity
import RelationAlgebra.Proofs.Growth
import RelationAlgebra.Proofs.Membership

/-!
# Growth of relations without complements

A reading widens another one if it has its rows and lists what it lists. Joins and unions preserve
this, although they look rows up where they can and walk them otherwise: a wider operand goes along
with every valuation that the narrower one goes along with. The active domain of a union widens too,
so no enumerated row of the union is lost. Hence a relation that is built without complements retains
all that it accepted and enumerated, whatever is added to the stored relations
(`Session.retains_of_complementFree`).
-/

namespace RelationAlgebra

namespace Relation

mutual

/-- Whether no complement occurs in a relation, at any depth. -/
def complementFree : Relation → Bool
  | base _ => true
  | union _ operands | intersection _ operands => complementFreeAll operands
  | complement .. => false
  | composition _ first second => first.complementFree && second.complementFree
  | converse _ relation => relation.complementFree

/-- Whether the relation of an operand is free of complements. -/
def complementFreeOperand : Bound Relation → Bool
  | ⟨relation, _⟩ => relation.complementFree

/-- Whether the relations of all operands are free of complements. -/
def complementFreeAll : List (Bound Relation) → Bool
  | [] => true
  | operand :: operands => complementFreeOperand operand && complementFreeAll operands

end

theorem complementFreeAll_iff {operands : List (Bound Relation)} :
    complementFreeAll operands = true ↔ ∀ v ∈ operands, v.relation.complementFree = true := by
  induction operands with
  | nil => simp [complementFreeAll]
  | cons operand operands ih =>
    cases operand
    simp [complementFreeAll, complementFreeOperand, ih]

end Relation

theorem exists_of_forall₂ {α β : Type} {P : α → β → Prop} {xs : List α} {ys : List β} {x : α}
    (h : List.Forall₂ P xs ys) (hx : x ∈ xs) : ∃ y ∈ ys, P x y := by
  induction h with
  | nil => cases hx
  | cons hxy _ ih =>
    rcases List.mem_cons.mp hx with rfl | hx
    · exact ⟨_, List.mem_cons_self, hxy⟩
    · obtain ⟨y, hy, hxy⟩ := ih hx
      exact ⟨y, List.mem_cons_of_mem _ hy, hxy⟩

/-- More pairs induce more pairs. -/
theorem PropertySet.induces_mono {ps : PropertySet} {x y : Extension} {a c : Atom}
    (hx : x.Valid) (hy : y.Valid) (harity : x.arity = 2) (harity' : y.arity = 2)
    (hsub : ∀ t ∈ x.rows, t ∈ y.rows) (h : ps.induces a c x = true) :
    ps.induces a c y = true := by
  have hedge : ∀ a c, x.Edge a c → y.Edge a c := fun _ _ => hsub _
  rw [induces_iff harity (hx.length_two harity)] at h
  rw [induces_iff harity' (hy.length_two harity')]
  rcases h with h | ⟨hsymmetric, h⟩ | ⟨htransitive, h⟩
  · exact Or.inl h
  · exact Or.inr (Or.inl ⟨hsymmetric, hedge c a h⟩)
  · exact Or.inr (Or.inr ⟨htransitive, h.lift id hedge⟩)

namespace Reading

variable {r r' : Reading} {o o' : Bound Reading} {os os' : List (Bound Reading)}
  {known : Var → Prop} {α : Assignment} {ν : Valuation} {output : List Var}

/-- Whether `r'` has the rows of `r` and lists what `r` lists. -/
structure Widens (r r' : Reading) : Prop where
  rows : ∀ t ∈ r.extension.rows, t ∈ r'.extension.rows
  lists : ∀ t, r.lists t = true → r'.lists t = true

/-- Whether an operand has the bindings of another one and a reading that widens that of the
other. -/
structure WidensBound (o o' : Bound Reading) : Prop where
  slots : o'.slots = o.slots
  relation : o.relation.Widens o'.relation

theorem WidensBound.hasRow (h : WidensBound o o') (hrow : HasRow o ν) : HasRow o' ν := by
  obtain ⟨row, hrow, hfit⟩ := hrow
  exact ⟨row, h.relation.rows row hrow, h.slots ▸ hfit⟩

theorem WidensBound.meets (h : WidensBound o o') (hm : Meets known o ν) : Meets known o' ν := by
  unfold Meets
  rw [h.slots]
  rcases hm with ⟨hsettled, row, hfit, hlists⟩ | ⟨hopen, hrow⟩
  · exact Or.inl ⟨hsettled, row, h.slots ▸ hfit, h.relation.lists row hlists⟩
  · exact Or.inr ⟨hopen, h.hasRow hrow⟩

/-- Operands can be widened all at once, since the slots they bind stay the same. -/
theorem MeetAll.widen (h : List.Forall₂ WidensBound os os') (hm : MeetAll ν known os) :
    MeetAll ν known os' := by
  induction h generalizing known with
  | nil => trivial
  | cons ho _ ih =>
    refine ⟨ho.meets hm.1, ?_⟩
    rw [ho.slots]
    exact ih hm.2

/-- A search reaches among wider operands whatever it reached before. -/
theorem Reaches.widen (hp : ∀ o ∈ os, Proper o) (hp' : ∀ o ∈ os', Proper o)
    (h : List.Forall₂ WidensBound os os') (hr : Reaches os α ν) : Reaches os' α ν := by
  rw [reaches_iff_meetAll hp] at hr
  rw [reaches_iff_meetAll hp']
  exact ⟨hr.1, hr.2.widen h⟩

/-- The active domain grows with the operands. -/
theorem mem_activeDomain_widen {a : Atom} (h : List.Forall₂ WidensBound os os')
    (ha : a ∈ activeDomain os) : a ∈ activeDomain os' := by
  rw [mem_activeDomain] at ha ⊢
  obtain ⟨o, ho, row, hrow, harow⟩ := ha
  obtain ⟨o', ho', hw⟩ := exists_of_forall₂ h ho
  exact ⟨o', ho', row, hw.relation.rows row hrow, harow⟩

/-- A join of wider operands is wider. -/
theorem widens_join (hn : output.Nodup) (hp : ∀ o ∈ os, Proper o) (hp' : ∀ o ∈ os', Proper o)
    (hout : ∀ v ∈ output, ∃ o ∈ os, .var v ∈ o.slots) (h : List.Forall₂ WidensBound os os') :
    (join output os).Widens (join output os') := by
  have hout' : ∀ v ∈ output, ∃ o ∈ os', .var v ∈ o.slots := by
    intro v hv
    obtain ⟨o, ho, hslot⟩ := hout v hv
    obtain ⟨o', ho', hw⟩ := exists_of_forall₂ h ho
    exact ⟨o', ho', hw.slots ▸ hslot⟩
  refine ⟨fun t ht => ?rows, fun t ht => ?lists⟩
  case rows =>
    obtain ⟨ν, hν, ht⟩ := (mem_rows_join hp hout).mp ht
    exact (mem_rows_join hp' hout').mpr ⟨ν, hν.widen hp hp' h, ht⟩
  case lists =>
    obtain ⟨ν, hν, ht⟩ := (lists_join_iff hn hp).mp ht
    exact (lists_join_iff hn hp').mpr ⟨ν, hν.widen hp hp' h, ht⟩

/-- What an operand contributes to a union its wider counterpart contributes too, since the active
domain widens with the operands. -/
theorem widens_union (hn : output.Nodup) (hp : ∀ o ∈ os, Proper o) (hp' : ∀ o ∈ os', Proper o)
    (h : List.Forall₂ WidensBound os os') : (union output os).Widens (union output os') := by
  have hreaches : ∀ {o o' α ν}, o ∈ os → o' ∈ os' → WidensBound o o' → Reaches [o] α ν →
      Reaches [o'] α ν := by
    intro o o' α ν ho ho' hw
    exact Reaches.widen (by simpa using hp o ho) (by simpa using hp' o' ho') (.cons hw .nil)
  refine ⟨fun t ht => ?rows, fun t ht => ?lists⟩
  case rows =>
    obtain ⟨o, ho, ν, hν, hdomain, ht⟩ := (mem_rows_union hn hp).mp ht
    obtain ⟨o', ho', hw⟩ := exists_of_forall₂ h ho
    refine (mem_rows_union hn hp').mpr ⟨o', ho', ν, hreaches ho ho' hw hν, ?_, ht⟩
    intro v hv hopen
    rw [hw.slots] at hopen
    exact mem_activeDomain_widen h (hdomain v hv hopen)
  case lists =>
    obtain ⟨o, ho, ν, hν, ht⟩ := (lists_union_iff hn hp).mp ht
    obtain ⟨o', ho', hw⟩ := exists_of_forall₂ h ho
    exact (lists_union_iff hn hp').mpr ⟨o', ho', ν, hreaches ho ho' hw hν, ht⟩

end Reading

namespace Store

variable {s s' s'' : Store} {b : Base} {r : Relation} {views : List View} {output : List Var}
  {t : Tuple}

/-- Whether a relation enumerates over `s'` what it enumerates over `s`, and accepts what it
accepts there. -/
structure Retains (s s' : Store) (r : Relation) : Prop where
  rows : ∀ t ∈ (s.rows r).rows, t ∈ (s'.rows r).rows
  accepts : ∀ t, s.accepts r t = true → s'.accepts r t = true

theorem Retains.refl (s : Store) (r : Relation) : s.Retains s r := ⟨fun _ h => h, fun _ h => h⟩

theorem Retains.trans (h : s.Retains s' r) (h' : s'.Retains s'' r) : s.Retains s'' r :=
  ⟨fun t ht => h'.rows t (h.rows t ht), fun t ht => h'.accepts t (h.accepts t ht)⟩

/-- A stored relation retains what it accepts as long as it keeps its rows. -/
theorem Holds.retains (hs : s.Valid) (hs' : s'.Valid) (hb : s.Holds b) (hb' : s'.Holds b)
    (hsub : ∀ t ∈ (s.extension b).rows, t ∈ (s'.extension b).rows) :
    s.Retains s' (.base b) := by
  refine ⟨hsub, fun t ht => ?_⟩
  rw [accepts_base_iff] at ht ⊢
  have harity : (s'.extension b).arity = (s.extension b).arity := by
    rw [hb.arity_extension, hb'.arity_extension]
  obtain ⟨hlen, ht⟩ := ht
  refine ⟨hlen.trans harity.symm, ?_⟩
  rcases ht with ht | ⟨a, c, rfl, ht⟩
  · exact Or.inl (hsub t ht)
  · have hpair : (s.extension b).arity = 2 := hlen.symm
    exact Or.inr ⟨a, c, rfl, PropertySet.induces_mono (hs.valid_extension b)
      (hs'.valid_extension b) hpair (harity.trans hpair) hsub ht⟩

/-! ## Without complements -/

theorem proper (hs : s.Valid) (hviews : ∀ v ∈ views, s.BuiltView v) :
    ∀ o ∈ views.map s.readBound, Reading.Proper o := by
  rw [List.forall_mem_map]
  exact fun v hv => (hviews v hv).proper ((hviews v hv).relation.regular hs)

theorem forall₂_readBound
    (h : ∀ v ∈ views, (s.read v.relation).Widens (s'.read v.relation)) :
    List.Forall₂ Reading.WidensBound (views.map s.readBound) (views.map s'.readBound) := by
  rw [List.forall₂_map_left_iff, List.forall₂_map_right_iff, List.forall₂_same]
  intro v hv
  rw [readBound_eq, readBound_eq]
  exact ⟨rfl, h v hv⟩

/-- Over a store that has everything another one has, a relation without complements says more. -/
theorem Built.widens (hs : s.Valid) (hs' : s'.Valid) (hext : s.Extends s') (hr : s.Built r)
    (hc : r.complementFree = true) : (s.read r).Widens (s'.read r) := by
  have hproper' : ∀ {views : List View}, (∀ v ∈ views, s.BuiltView v) →
      ∀ o ∈ views.map s'.readBound, Reading.Proper o := fun hviews =>
    proper hs' fun v hv => (hviews v hv).mono hext.grows
  have hjoin : ∀ {views : List View} {output : List Var}, output.Nodup →
      (∀ x ∈ output, ∃ v ∈ views, .var x ∈ v.slots) →
      (∀ v ∈ views, s.BuiltView v ∧ (v.relation.complementFree = true →
        (s.read v.relation).Widens (s'.read v.relation))) →
      (∀ v ∈ views, v.relation.complementFree = true) →
      (Reading.join output (views.map s.readBound)).Widens
        (.join output (views.map s'.readBound)) := fun hn hout ih hc =>
    Reading.widens_join hn (proper hs fun v hv => (ih v hv).1)
      (hproper' fun v hv => (ih v hv).1) (fun x hx => exists_readBound (hout x hx))
      (forall₂_readBound fun v hv => (ih v hv).2 (hc v hv))
  revert hc
  refine Built.induction ?base ?union ?intersection ?complement ?composition ?converse hr
  case base =>
    intro b _ _
    have hsub : ∀ t ∈ (s.extension b).rows, t ∈ (s'.extension b).rows := fun _ ht =>
      (hext.rows b).subset ht
    exact ⟨hsub, fun t ht => Extension.contains_iff.mpr (hsub t (Extension.contains_iff.mp ht))⟩
  case union =>
    intro id views ih hc
    rw [Relation.complementFree, Relation.complementFreeAll_iff] at hc
    rw [read_union, read_union]
    exact Reading.widens_union Bound.nodup_correspondence (proper hs fun v hv => (ih v hv).1)
      (hproper' fun v hv => (ih v hv).1) (forall₂_readBound fun v hv => (ih v hv).2 (hc v hv))
  case intersection =>
    intro id views ih hc
    rw [Relation.complementFree, Relation.complementFreeAll_iff] at hc
    rw [read_intersection, read_intersection]
    exact hjoin Bound.nodup_correspondence (fun _ => Bound.mem_correspondence.mp) ih hc
  case complement =>
    intro id v registry _ _ hc
    cases hc
  case composition =>
    intro id first second ih hc
    rw [Relation.complementFree, Bool.and_eq_true] at hc
    rw [read_composition, read_composition]
    exact hjoin nodup_compositionOutput (fun _ => exists_of_mem_compositionOutput) ih
      (by simp [Relation.compositionViews, hc])
  case converse =>
    intro id relation ih hc
    rw [Relation.complementFree] at hc
    rw [read_converse, read_converse]
    exact hjoin nodup_converseOutput (fun _ => exists_of_mem_converseOutput) ih
      (by simp [Relation.converseViews, hc])

theorem Extends.retains (hs : s.Valid) (hs' : s'.Valid) (hext : s.Extends s') (hr : s.Built r)
    (hc : r.complementFree = true) : s.Retains s' r := by
  cases r with
  | base b =>
    exact hr.holds.retains hs hs' (hext.grows.holds hr.holds) fun _ ht =>
      (hext.rows b).subset ht
  | union | intersection | complement | composition | converse =>
    have hwidens := hr.widens hs hs' hext hc
    refine ⟨hwidens.rows, fun t ht => ?_⟩
    rw [accepts_eq_lists rfl] at ht ⊢
    exact hwidens.lists t ht

end Store

namespace Session

variable {s : Session} {r : Relation}

/-- A relation without complements retains what it accepts and what it enumerates, whatever is
requested of the session, be it granted or refused: additions to any relations, and more. -/
theorem retains_of_complementFree (hs : s.Reached) (hr : s.store.Built r)
    (hc : r.complementFree = true) (requests : List Request) :
    s.store.Retains (s.run requests).2.store r :=
  (hs.valid.extends_run requests).retains hs.valid.store (hs.valid.run requests).store hr hc

/-- Additions, two of which are refused: a tuple has the wrong length, and a derived relation takes
no tuples. -/
def kinshipAdditions : List Request :=
  [.act (.addAll "parent" [[.text "ania", .text "ewa"]]) none,
   .act (.addAll "female" [[.text "ewa"], [.text "ewa", .text "jan"]]) none,
   .act (.addAll "known" [[.text "jan", .text "jan"]]) none,
   .act (.addAll "female" [[.text "ewa"]]) none]

/-- The added atom enlarges the active domain of `known`, and so `mutual`. -/
theorem retains_of_complementFree_mutual :
    ∃ r, kinship.relation "mutual" = .ok r ∧ r.complementFree = true ∧
      (kinship.run kinshipAdditions).1 =
        [.ok (.count 3), .error (.algebra (.arityMismatch "female" 1 2)),
         .error (.algebra (.readOnly "parent_or_female")), .ok (.count 3)] ∧
      kinship.store.Retains (kinship.run kinshipAdditions).2.store r ∧
      [.text "teresa", .text "ewa"] ∉ (kinship.store.rows r).rows ∧
      [.text "teresa", .text "ewa"] ∈ ((kinship.run kinshipAdditions).2.store.rows r).rows := by
  have hmutual : ∃ r, kinship.relation "mutual" = .ok r ∧ r.complementFree = true ∧
      [.text "teresa", .text "ewa"] ∉ (kinship.store.rows r).rows ∧
      [.text "teresa", .text "ewa"] ∈ ((kinship.run kinshipAdditions).2.store.rows r).rows :=
    ⟨_, rfl, rfl, by decide, by decide⟩
  obtain ⟨r, hr, hc, hbefore, hafter⟩ := hmutual
  have hreached : kinship.Reached := reached_run .empty kinshipRequests
  exact ⟨r, hr, hc, rfl,
    retains_of_complementFree hreached (built_kinship hr) hc kinshipAdditions, hbefore, hafter⟩

end Session

end RelationAlgebra
