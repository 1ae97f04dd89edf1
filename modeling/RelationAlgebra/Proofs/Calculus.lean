import RelationAlgebra.Proofs.Expression

/-!
# The calculus of relations

The laws by which composition goes along with itself, with union and with converse. Composition is
associative whatever its operands are, also where they accept tuples that they do not enumerate. Of
three relations in a row, the rows of the first two are walked and the last one is asked, and this
does not depend on the nesting. The laws with union and converse are about relations that list their
rows only, as stored ones do, and come down to laws of the values of expressions.
-/

namespace RelationAlgebra

/-- Whether a tuple is made of the ends of a chain of three links, each of a given kind. -/
def Tuple.Chained (T U V : Tuple → Prop) (t : Tuple) : Prop :=
  ∃ a b c d, t = [a, d] ∧ T [a, b] ∧ U [b, c] ∧ V [c, d]

namespace Tuple

variable {T U V : Tuple → Prop} {t : Tuple} {a d : Atom}

theorem Chained.length (h : Chained T U V t) : t.length = 2 := by
  obtain ⟨a, b, c, d, rfl, -⟩ := h
  rfl

theorem chained_pair_iff :
    Chained T U V [a, d] ↔ ∃ b c, T [a, b] ∧ U [b, c] ∧ V [c, d] := by
  constructor
  · rintro ⟨a, b, c, d, ⟨⟩, h⟩
    exact ⟨b, c, h⟩
  · rintro ⟨b, c, h⟩
    exact ⟨a, b, c, d, rfl, h⟩

end Tuple

/-! ## Associativity -/

namespace Store

variable {s : Store} {r₁ r₂ r₃ q r : Relation} {i j : Nat}

/-- Whether a relation holds what three relations in a row link. It enumerates the ends of chains of
rows. The last link of a chain whose ends it accepts may be any pair that the last relation lists,
whereas the other two are rows. -/
structure Chains (s : Store) (r₁ r₂ r₃ r : Relation) : Prop where
  rows : ∀ t, t ∈ (s.rows r).rows ↔
    Tuple.Chained (· ∈ (s.rows r₁).rows) (· ∈ (s.rows r₂).rows) (· ∈ (s.rows r₃).rows) t
  accepts : ∀ t, s.accepts r t = true ↔
    Tuple.Chained (· ∈ (s.rows r₁).rows) (· ∈ (s.rows r₂).rows) ((s.read r₃).lists · = true) t

/-- Relations that hold the same chains accept and enumerate the same tuples. -/
theorem Chains.same (hq : s.Chains r₁ r₂ r₃ q) (hr : s.Chains r₁ r₂ r₃ r) : s.Same q r :=
  fun t => ⟨(hq.accepts t).trans (hr.accepts t).symm, (hq.rows t).trans (hr.rows t).symm⟩

/-- A composition nested to the left holds the chains of its three relations. -/
theorem chains_nested_left (h₁ : s.Paired r₁) (h₂ : s.Paired r₂) (h₃ : s.Paired r₃) :
    s.Chains r₁ r₂ r₃ (.composition i (.composition j r₁ r₂) r₃) := by
  have h₁₂ : s.Paired (.composition j r₁ r₂) := paired_composition h₁ h₂
  constructor
  case rows =>
    refine Tuple.iff_of_pairs (paired_composition h₁₂ h₃) (fun _ => Tuple.Chained.length)
      fun a d => ?_
    simp only [mem_rows_composition h₁₂ h₃, mem_rows_composition h₁ h₂, Tuple.chained_pair_iff,
      ← exists_and_right, and_assoc]
    exact exists_comm
  case accepts =>
    -- the rows of the inner composition are walked, and `r₃` is asked
    intro t
    rw [accepts_eq_lists rfl]
    refine Tuple.iff_of_pairs (fun _ => length_of_lists_composition)
      (fun _ => Tuple.Chained.length) (fun a d => ?_) t
    simp only [lists_composition_iff h₁₂ h₃, mem_rows_composition h₁ h₂, Tuple.chained_pair_iff,
      ← exists_and_right, and_assoc]
    exact exists_comm

/-- A composition nested to the right holds the chains of its three relations. -/
theorem chains_nested_right (h₁ : s.Paired r₁) (h₂ : s.Paired r₂) (h₃ : s.Paired r₃) :
    s.Chains r₁ r₂ r₃ (.composition i r₁ (.composition j r₂ r₃)) := by
  have h₂₃ : s.Paired (.composition j r₂ r₃) := paired_composition h₂ h₃
  constructor
  case rows =>
    refine Tuple.iff_of_pairs (paired_composition h₁ h₂₃) (fun _ => Tuple.Chained.length)
      fun a d => ?_
    simp only [mem_rows_composition h₁ h₂₃, mem_rows_composition h₂ h₃, Tuple.chained_pair_iff,
      ← exists_and_left]
  case accepts =>
    -- the rows of `r₁` are walked, and the inner composition is asked, which walks `r₂` in turn
    intro t
    rw [accepts_eq_lists rfl]
    refine Tuple.iff_of_pairs (fun _ => length_of_lists_composition)
      (fun _ => Tuple.Chained.length) (fun a d => ?_) t
    simp only [lists_composition_iff h₁ h₂₃, lists_composition_iff h₂ h₃, Tuple.chained_pair_iff,
      ← exists_and_left]

/-- Composition is associative, whatever binary relations it is applied to. -/
theorem composition_assoc (hs : s.Reachable) (h₁ : s.Built r₁) (h₂ : s.Built r₂) (h₃ : s.Built r₃)
    (ha₁ : r₁.arity = 2) (ha₂ : r₂.arity = 2) (ha₃ : r₃.arity = 2)
    (number number' : Nat → Nat) (registry : String) :
    ∃ q r,
      Expression.derive (.composition (.composition r₁ r₂) r₃) number registry = .ok q ∧
      Expression.derive (.composition r₁ (.composition r₂ r₃)) number' registry = .ok r ∧
      s.Chains r₁ r₂ r₃ q ∧ s.Chains r₁ r₂ r₃ r ∧ s.Same q r := by
  have hleft : (Expression.composition (.composition r₁ r₂) r₃).build number registry 0 =
      .ok (.composition (number 1) (.composition (number 0) r₁ r₂) r₃, 2) :=
    Expression.build_composition (Expression.build_composition rfl rfl ha₁ ha₂) rfl rfl ha₃
  have hright : (Expression.composition r₁ (.composition r₂ r₃)).build number' registry 0 =
      .ok (.composition (number' 1) r₁ (.composition (number' 0) r₂ r₃), 2) :=
    Expression.build_composition rfl (Expression.build_composition rfl rfl ha₂ ha₃) ha₁ rfl
  have hp₁ := h₁.paired hs.valid ha₁
  have hp₂ := h₂.paired hs.valid ha₂
  have hp₃ := h₃.paired hs.valid ha₃
  have hq : s.Chains r₁ r₂ r₃ (.composition (number 1) (.composition (number 0) r₁ r₂) r₃) :=
    chains_nested_left hp₁ hp₂ hp₃
  have hr : s.Chains r₁ r₂ r₃ (.composition (number' 1) r₁ (.composition (number' 0) r₂ r₃)) :=
    chains_nested_right hp₁ hp₂ hp₃
  exact ⟨_, _, Expression.derive_of_build hleft, Expression.derive_of_build hright, hq, hr,
    hq.same hr⟩

theorem composition_assoc_known :
    ∃ k m, Session.kinship.relation "known" = .ok k ∧ Session.kinship.relation "mutual" = .ok m ∧
      k.covered = false ∧
      ∃ q r,
        Expression.derive (.composition (.composition k Session.kinshipParent) m) (7 + ·) "main" =
          .ok q ∧
        Expression.derive (.composition k (.composition Session.kinshipParent m)) (9 + ·) "main" =
          .ok r ∧
        Session.kinship.store.Chains k (.base Session.kinshipParent) m q ∧
        Session.kinship.store.Chains k (.base Session.kinshipParent) m r ∧
        Session.kinship.store.Same q r := by
  have hknown : ∃ k, Session.kinship.relation "known" = .ok k ∧ k.covered = false ∧ k.arity = 2 :=
    ⟨_, rfl, rfl, rfl⟩
  have hmutual : ∃ m, Session.kinship.relation "mutual" = .ok m ∧ m.arity = 2 := ⟨_, rfl, rfl⟩
  obtain ⟨k, hk, hc, hak⟩ := hknown
  obtain ⟨m, hm, ham⟩ := hmutual
  exact ⟨k, m, hk, hm, hc,
    composition_assoc Session.reachable_kinship (Session.built_kinship hk)
      (.base Session.holds_kinshipParent) (Session.built_kinship hm) hak rfl ham _ _ "main"⟩

end Store

/-! ## Union and converse -/

namespace Expression

variable {s : Store} {e f g : Expression}

/-- The converse of a composition is the composition of the converses in reverse order. -/
theorem Typed.converse_composition (he : e.Typed s 2) (hf : f.Typed s 2) :
    s.Agree (.converse (.composition e f)) (.composition (.converse f) (.converse e)) := by
  refine (he.composition hf).converse.agree_of_pairs (hf.converse.composition he.converse)
    rfl rfl fun a c => ?_
  simp only [mem_value_converse, mem_value_composition]
  exact exists_congr fun b => and_comm

/-- Composition distributes over a union on its right. -/
theorem Typed.composition_union (he : e.Typed s 2) (hf : f.Typed s 2) (hg : g.Typed s 2) :
    s.Agree (.composition e (.union [f, g])) (.union [.composition e f, .composition e g]) := by
  refine (he.composition (hf.union_pair hg)).agree_of_pairs
    ((he.composition hf).union_pair (he.composition hg)) rfl rfl fun a c => ?_
  simp only [mem_value_union_pair, mem_value_composition]
  simp only [and_or_left, exists_or]

/-- Composition distributes over a union on its left. -/
theorem Typed.union_composition (he : e.Typed s 2) (hf : f.Typed s 2) (hg : g.Typed s 2) :
    s.Agree (.composition (.union [e, f]) g) (.union [.composition e g, .composition f g]) := by
  refine ((he.union_pair hf).composition hg).agree_of_pairs
    ((he.composition hg).union_pair (hf.composition hg)) rfl rfl fun a c => ?_
  simp only [mem_value_union_pair, mem_value_composition]
  simp only [or_and_right, exists_or]

end Expression

namespace Store

variable {s : Store} {b c d : Base}

/-- Swapping twice gives back the rows of a stored relation, in their order. -/
theorem Valid.rows_converse_converse (hs : s.Valid) (hb : s.Holds b) (harity : b.arity = 2)
    (i j : Nat) :
    (s.rows (.converse i (.converse j (.base b)))).rows = (s.extension b).rows := by
  have hpaired : s.Paired (.base b) := Built.paired hs (.base hb) harity
  -- exchanging atoms makes no two rows equal, so none is dropped
  have hnodup : ((s.extension b).rows.map List.reverse).Nodup :=
    (hs.valid_extension b).nodup.map List.reverse_injective
  have hconverse :
      (s.rows (.converse j (.base b))).rows = (s.extension b).rows.map List.reverse := by
    rw [rows_converse hpaired]
    exact eraseDups_eq_self hnodup
  rw [rows_converse (paired_converse hpaired), hconverse, List.map_map,
    List.reverse_involutive.comp_self, List.map_id, eraseDups_eq_self (hs.valid_extension b).nodup]

theorem Valid.exists_converse_converse (hs : s.Valid) (hb : s.Holds b) (harity : b.arity = 2)
    (number : Nat → Nat) (registry : String) :
    ∃ r, Expression.derive (.converse (.converse b)) number registry = .ok r ∧
      (s.rows r).rows = (s.extension b).rows ∧
      ∀ t, s.accepts r t = true ↔ t ∈ (s.extension b).rows := by
  have hbuild : (Expression.converse (.converse b)).build number registry 0 =
      .ok (.converse (number 1) (.converse (number 0) (.base b)), 2) :=
    Expression.build_converse (Expression.build_converse rfl harity) rfl
  have htabular : s.Tabular 2 (.converse (number 1) (.converse (number 0) (.base b))) :=
    (harity ▸ hs.tabular_base hb).converse.converse
  have hrows := hs.rows_converse_converse hb harity (number 1) (number 0)
  refine ⟨_, Expression.derive_of_build hbuild, hrows, fun t => ?_⟩
  rw [htabular.accepts_iff rfl, hrows]

/-- What compositions and unions of stored relations hold, and the laws that tie them to each other
and to converses. -/
structure CalculusLaws (s : Store) (b c d : Base) : Prop where
  composition : s.Exhibits (.composition b c) {t | ∃ x y z, t = [x, z] ∧
    [x, y] ∈ (s.extension b).rows ∧ [y, z] ∈ (s.extension c).rows}
  union : s.Exhibits (.union [b, c]) {t | t ∈ (s.extension b).rows ∨ t ∈ (s.extension c).rows}
  converse_composition :
    s.Agree (.converse (.composition b c)) (.composition (.converse c) (.converse b))
  composition_union :
    s.Agree (.composition b (.union [c, d])) (.union [.composition b c, .composition b d])
  union_composition :
    s.Agree (.composition (.union [b, c]) d) (.union [.composition b d, .composition c d])
  /-- The rows come in their order, and nothing else is accepted. -/
  converse_converse : ∀ number registry, ∃ r,
    Expression.derive (.converse (.converse b)) number registry = .ok r ∧
      (s.rows r).rows = (s.extension b).rows ∧
      ∀ t, s.accepts r t = true ↔ t ∈ (s.extension b).rows

/-- Stored binary relations obey the calculus of relations, whatever they declare. -/
theorem calculusLaws_of_holds (hs : s.Reachable) (hb : s.Holds b) (hc : s.Holds c) (hd : s.Holds d)
    (hab : b.arity = 2) (hac : c.arity = 2) (had : d.arity = 2) : s.CalculusLaws b c d := by
  have htb : Expression.Typed s 2 b := .relation (hab ▸ hs.valid.tabular_base hb)
  have htc : Expression.Typed s 2 c := .relation (hac ▸ hs.valid.tabular_base hc)
  have htd : Expression.Typed s 2 d := .relation (had ▸ hs.valid.tabular_base hd)
  have hcomposition := (htb.composition htc).exhibits rfl
  have hunion := (htb.union_pair htc).exhibits rfl
  rw [Expression.value, Expression.value_base, Expression.value_base] at hcomposition
  rw [Expression.value_union_pair, Expression.value_base, Expression.value_base] at hunion
  exact {
    composition := hcomposition
    union := hunion
    converse_composition := htb.converse_composition htc
    composition_union := htb.composition_union htc htd
    union_composition := htb.union_composition htc htd
    converse_converse := hs.valid.exists_converse_converse hb hab }

theorem calculusLaws_of_holds_transit :
    Session.transit.store.CalculusLaws Session.transitRail Session.transitFlight
      Session.transitFerry :=
  calculusLaws_of_holds Session.reachable_transit Session.holds_transitRail
    Session.holds_transitFlight Session.holds_transitFerry rfl rfl rfl

end Store

end RelationAlgebra
