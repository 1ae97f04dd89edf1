import RelationAlgebra.Proofs.Declared
import RelationAlgebra.Proofs.DoubleComplement
import RelationAlgebra.Proofs.Growth
import RelationAlgebra.Proofs.Recursion

/-!
# Evaluation ends

Numbers are given to relations in the order in which they are made, and relations are derived of what
has names already, so operands have lower numbers than what is built of them
(`Session.Reached.ordered`). Registries list stored relations, each of them once
(`Session.Reached.nodup_registry`). Hence the calls among the relations of a session come to an end,
however often complements are nested and whatever is registered later (`Session.evaluation_ends`).
-/

namespace RelationAlgebra

namespace Relation

variable {id : Nat} {combinator : Combinator} {views : List View} {registry : String} {r : Relation}

theorem id_of_derive (h : derive id combinator views registry = .ok r) : r.id = id := by
  rcases derive_cases h with ⟨-, -, rfl⟩ | ⟨-, -, rfl⟩ | ⟨v, -, rfl, rfl⟩ |
    ⟨v, w, -, rfl, -, -, rfl⟩ | ⟨v, -, rfl, -, rfl⟩ <;> rfl

/-- What is derived of relations with lower numbers has operands with lower numbers. -/
theorem ordered_of_derive (h : derive id combinator views registry = .ok r)
    (hviews : ∀ v ∈ views, v.relation.Ordered ∧ v.relation.id < id) : r.Ordered := by
  have hoperands : ∀ w ∈ r.operands, w.relation.Ordered ∧ w.relation.id < id := by
    intro w hw
    obtain ⟨v, hv, heq⟩ := operands_of_derive h w hw
    exact heq ▸ hviews v hv
  intro q hq v hv
  cases hq with
  | refl => exact id_of_derive h ▸ (hoperands v hv).2
  | operand hw hq => exact (hoperands _ hw).1 q hq v hv

end Relation

/-- The next number is above those of all built relations. -/
theorem Store.Built.id_lt {s : Store} {r : Relation} (hs : s.Valid) (h : s.Built r) :
    r.id < s.next := by
  cases hd : r.isDerived with
  | true => exact (h.reserves hd).1
  | false =>
    cases r with
    | base b =>
      obtain ⟨x, hx, -⟩ := h.holds.exists_lookup
      exact hs.next hx
    | union | intersection | complement | composition | converse => cases hd

/-- Whether no registry lists a number twice. -/
def Store.Distinct (s : Store) : Prop := ∀ registry, ((s.registry registry).map Base.id).Nodup

/-- New relations are listed with new numbers. -/
theorem Store.Valid.distinct_make {s : Store} (hs : s.Valid) (h : s.Distinct)
    (target : Option String) (staging : Staging) : (s.make target staging).Distinct := by
  intro registry
  rw [registry_make]
  split
  · -- the numbers that are listed were given before, those of the new relations were not
    rw [List.map_append, List.nodup_append]
    refine ⟨h registry, nodup_map_id_stage _ _, fun i hi j hj => ?_⟩
    obtain ⟨b, hb, rfl⟩ := List.mem_map.mp hi
    obtain ⟨c, hc, rfl⟩ := List.mem_map.mp hj
    have hlt := (Built.base (hs.registered hb)).id_lt hs
    exact Nat.ne_of_lt (Nat.lt_of_lt_of_le hlt (next_le_of_mem_stage hc))
  · exact h registry

/-- What a built relation involves is built. -/
theorem Store.Built.involved {s : Store} {r q : Relation} (hr : s.Built r) (h : r.Involves q) :
    s.Built q := by
  induction h with
  | refl => exact hr
  | operand hv _ ih => exact ih (hr.operands _ hv).relation

/-- The relation that something with a name is, or binds. -/
def Handle.relation? : Handle → Option Relation
  | relation r => some r
  | binary b => some (.base b)
  | view v => some v.relation
  | extension _ | scan _ => none

namespace Session

variable {s s' : Session} {name : Option String} {r : Relation}

/-! ## Numbers -/

/-- Whether some name stands for a relation, bound or not. -/
def Names (s : Session) (r : Relation) : Prop :=
  ∃ name h, s.handles.lookup name = some h ∧ h.relation? = some r

theorem names_of_relation {n : String} (h : s.relation n = .ok r) : s.Names r := by
  unfold Session.relation at h
  split at h
  next hname => exact ⟨n, _, hname, congrArg some (Except.ok.inj h)⟩
  next hname => exact ⟨n, _, hname, congrArg some (Except.ok.inj h)⟩
  next => cases h

/-- To keep a handle gives a name to one relation at most. -/
theorem names_of_keep {h : Handle} (hr : (s.keep name h).Names r) :
    s.Names r ∨ h.relation? = some r := by
  obtain ⟨n, k, hname, hk⟩ := hr
  rcases lookup_of_keep hname with hname | rfl
  · exact Or.inl ⟨n, k, hname, hk⟩
  · exact Or.inr hk

/-- What a session has to offer is stored, or has a name. -/
theorem Offers.names {k : Handle} (hk : s.Offers k) (hr : k.relation? = some r) :
    s.Names r ∨ ∃ b, r = .base b := by
  cases hk with
  | kept h => exact Or.inl ⟨_, _, h, hr⟩
  | whole h =>
    obtain rfl := Option.some.inj hr
    exact Or.inl (names_of_relation h)
  | bound h hv =>
    obtain rfl := Option.some.inj hr
    obtain ⟨-, rfl⟩ := Relation.view_of_bind hv
    exact Or.inl (names_of_relation h)
  | listed => exact Or.inr ⟨_, (Option.some.inj hr).symm⟩
  | extension | scan => cases hr

theorem Valid.built_of_names (hs : s.Valid) (h : s.Names r) : s.store.Built r := by
  obtain ⟨n, k, hname, hk⟩ := h
  have hover := hs.handles hname
  cases k with
  | relation q => exact Option.some.inj hk ▸ hover
  | binary b => exact Option.some.inj hk ▸ .base hover
  | view v => exact Option.some.inj hk ▸ Store.BuiltView.relation hover
  | extension | scan => cases hk

theorem Offers.ordered {k : Handle} (hk : s.Offers k) (hr : k.relation? = some r)
    (hnames : ∀ r, s.Names r → r.Ordered) : r.Ordered := by
  rcases hk.names hr with hr | ⟨b, rfl⟩
  · exact hnames r hr
  · exact Relation.ordered_base b

theorem ordered_of_keep {k : Handle} (hnames : ∀ r, s.Names r → r.Ordered)
    (hk : ∀ r, k.relation? = some r → r.Ordered) : ∀ r, (s.keep name k).Names r → r.Ordered := by
  intro r hr
  rcases names_of_keep hr with hr | hr
  · exact hnames r hr
  · exact hk r hr

/-- An action derives relations of what has names, so it keeps them in order. -/
theorem Valid.ordered_of_acts (hs : s.Valid) {action : Action} (h : s.Acts name action s')
    (hnames : ∀ r, s.Names r → r.Ordered) : ∀ r, s'.Names r → r.Ordered := by
  cases h with
  | answers | fills | installs => exact hnames
  | keeps _ hk => exact ordered_of_keep hnames fun r hr => hk.ordered hr hnames
  | moves => exact ordered_of_keep hnames fun r hr => by cases hr
  | declares h =>
    refine ordered_of_keep hnames fun r hr => ?_
    cases h <;> exact Option.some.inj hr ▸ Relation.ordered_base _
  | derives _ hviews h =>
    refine ordered_of_keep hnames fun r hr => ?_
    obtain rfl := Option.some.inj hr
    refine Relation.ordered_of_derive (Store.derive_eq_ok_iff.mp h).1 fun v hv => ?_
    have hbuilt := Store.BuiltView.relation (hs.over_of_offers (hviews v hv))
    exact ⟨(hviews v hv).ordered rfl hnames, hbuilt.id_lt hs.store⟩

/-- Operands have lower numbers than what is built of them, as far as names lead. -/
theorem Reached.ordered (hs : s.Reached) : ∀ r, s.Names r → r.Ordered := by
  refine Reached.induction ?start ?acts ?fails hs
  case start =>
    rintro r ⟨n, k, hname, -⟩
    cases hname
  case acts =>
    intro s name action s' hs hacts ih
    exact hs.valid.ordered_of_acts hacts ih
  case fails =>
    intro s staging hs hstaging ih
    exact ih

/-! ## Registries -/

theorem Valid.distinct_of_writes {request : Request} {store : Store} (hs : s.Valid)
    (hdistinct : s.store.Distinct) (h : s.Writes request store) : store.Distinct := by
  cases h with
  | fills _ h =>
    obtain ⟨x, -, rfl⟩ := Store.addAll_base_eq_ok_iff.mp h
    exact hdistinct
  | counts => exact hdistinct
  | makes => exact hs.store.distinct_make hdistinct _ _

/-- By induction on the requests, no registry of a session that is reached lists a number twice. -/
theorem Reached.nodup_registry (hs : s.Reached) : s.store.Distinct := by
  refine Reached.induction ?start ?acts ?fails hs
  case start =>
    intro registry
    exact List.nodup_nil
  case acts =>
    intro s name action s' hs hacts ih
    have hwrites : s.Writes (.act action name) s'.store := writes_of_acts rfl hacts
    exact hs.valid.distinct_of_writes ih hwrites
  case fails =>
    intro s staging hs hstaging ih
    exact hs.valid.store.distinct_make ih none staging

/-! ## Every relation of a session -/

/-- The relations of a session: those that registries list, those that have names, and all that
these are built on. -/
inductive Contains (s : Session) : Relation → Prop where
  | registered {registry : String} {r : Relation} (h : r ∈ s.store.registered registry) :
    Contains s r
  | named {q r : Relation} (hq : s.Names q) (h : q.Involves r) : Contains s r

theorem Contains.operand {v : View} (h : s.Contains r) (hv : v ∈ r.operands) :
    s.Contains v.relation := by
  cases h with
  | registered h =>
    obtain ⟨b, -, rfl⟩ := List.mem_map.mp h
    cases hv
  | named hq h => exact .named hq (h.trans (.operand hv (.refl _)))

/-- Whatever a session contains is ordered by its numbers. -/
theorem Reached.ordered_of_contains (hs : s.Reached) (hr : s.Contains r) : r.Ordered := by
  cases hr with
  | registered h =>
    obtain ⟨b, -, rfl⟩ := List.mem_map.mp h
    exact Relation.ordered_base b
  | named hq h => exact (hs.ordered _ hq).involved h

theorem Valid.built_of_contains (hs : s.Valid) (hr : s.Contains r) : s.store.Built r := by
  cases hr with
  | registered h =>
    obtain ⟨b, hb, rfl⟩ := List.mem_map.mp h
    exact .base (hs.store.registered hb)
  | named hq h => exact (hs.built_of_names hq).involved h

/-- After any requests, registries list stored relations that have slots, none of them twice, and
what is built of relations was made after them. Hence all relations answer all questions: none needs
calls that nest deeper than its number, whatever the registries of its complements list by now. -/
theorem evaluation_ends (hs : s.Reached) :
    (∀ registry,
      (∀ r ∈ s.store.registered registry,
        ∃ b, r = .base b ∧ s.store.Holds b ∧ 0 < b.arity) ∧
      ((s.store.registered registry).map Relation.id).Nodup) ∧
    (∀ r, s.Contains r → r.id < s.store.next ∧
      ∀ v ∈ r.operands, s.Contains v.relation ∧ v.relation.id < r.id) ∧
    ∀ r, s.Contains r → ∀ limit, r.id < limit →
      s.store.evaluate s.store.registered limit r = .total (s.store.read r) ∧
      ∀ registry,
        PartialReading.ambient (s.store.evaluate s.store.registered limit)
            (s.store.registered registry) r =
          some (s.store.ambient registry r.arity r.id) := by
  refine ⟨fun registry => ⟨fun r hr => ?_, ?_⟩, fun r hr => ⟨?_, fun v hv => ⟨hr.operand hv, ?_⟩⟩,
    fun r hr limit hlimit => ⟨?_, fun registry => ?_⟩⟩
  · obtain ⟨b, hb, rfl⟩ := List.mem_map.mp hr
    exact ⟨b, rfl, hs.valid.store.registered hb, (hs.lawful.declarable (.registered hb)).arity_pos⟩
  · rw [Store.registered, List.map_map]
    exact hs.nodup_registry registry
  · exact (hs.valid.built_of_contains hr).id_lt hs.valid.store
  · exact (hs.ordered_of_contains hr).id_lt hv
  · exact Store.evaluate_eq_total (hs.ordered_of_contains hr) hlimit
  · exact Store.ambient_evaluate (Nat.lt_of_le_of_lt (Nat.zero_le _) hlimit) registry r

/-- The kinship example with a complement of a complement in one registry, that lists one more
relation by the end. -/
def kinshipTwiceRequests : List Request :=
  kinshipRequests ++
    [.act (.derive .complement [.handle "oneSided"] "main") (some "twice"),
     .act (.declare "married" 2 (some "main")) (some "married")]

def kinshipTwice : Session := (empty.run kinshipTwiceRequests).2

theorem evaluation_ends_kinshipTwice :
    ∃ r, kinshipTwice.relation "twice" = .ok r ∧ r.id = 7 ∧
      kinshipTwice.store.evaluate kinshipTwice.store.registered 8 r =
        .total (kinshipTwice.store.read r) := by
  have hreached : kinshipTwice.Reached := reached_run .empty kinshipTwiceRequests
  obtain ⟨r, hr, hid⟩ : ∃ r, kinshipTwice.relation "twice" = .ok r ∧ r.id = 7 := ⟨_, rfl, rfl⟩
  have hcontains : kinshipTwice.Contains r := .named (names_of_relation hr) (.refl r)
  refine ⟨r, hr, hid, ((evaluation_ends hreached).2.2 r hcontains 8 ?_).1⟩
  rw [hid]
  decide

end Session

end RelationAlgebra
