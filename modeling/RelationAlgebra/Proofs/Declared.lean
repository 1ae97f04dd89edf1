import RelationAlgebra.Proofs.Atomicity
import RelationAlgebra.Proofs.Commit
import RelationAlgebra.Proofs.Guard

/-!
# The stored relations of a session

A session knows a stored relation if a registry lists it or if something that has a name is built on
it. A step makes new relations, or it admits tuples to one that the session knows
(`Session.Develops`). Hence relations that a session knows are told apart by their numbers, were
declared with a declarable schema, and keep to its guards (`Session.Lawful`), whatever handles and
datasets their pairs came through (`Session.guards_hold`).
-/

namespace RelationAlgebra

/-! ## Leaves -/

/-- Whether a relation is a stored one, or built on it at any depth. -/
inductive Relation.RestsOn : Relation → Base → Prop where
  | base (b : Base) : RestsOn (.base b) b
  | operand {r : Relation} {v : View} {b : Base} (hv : v ∈ r.operands)
      (h : RestsOn v.relation b) : RestsOn r b

theorem Relation.RestsOn.eq {b c : Base} (h : (Relation.base b).RestsOn c) : c = b := by
  cases h with
  | base => rfl
  | operand hv => cases hv

/-- A derived relation rests on what its operands rest on. -/
theorem Relation.RestsOn.of_derive {id : Nat} {combinator : Combinator} {views : List View}
    {registry : String} {r : Relation} {b : Base} (h : r.RestsOn b)
    (hr : derive id combinator views registry = .ok r) : ∃ v ∈ views, v.relation.RestsOn b := by
  cases h with
  | base =>
    rcases derive_cases hr with ⟨-, -, h⟩ | ⟨-, -, h⟩ | ⟨v, -, -, h⟩ | ⟨v, w, -, -, -, -, h⟩ |
      ⟨v, -, -, -, h⟩
    all_goals cases h
  | operand hu h =>
    obtain ⟨v, hv, heq⟩ := operands_of_derive hr _ hu
    exact ⟨v, hv, heq ▸ h⟩

/-- The stored relations under a built one are held by its store. -/
theorem Store.Built.holds_of_restsOn {s : Store} {r : Relation} {b : Base} (hr : s.Built r)
    (h : r.RestsOn b) : s.Holds b := by
  induction h with
  | base => exact hr.holds
  | operand hv _ ih => exact ih (hr.operands _ hv).relation

/-- Whether what a name stands for is built on a stored relation. -/
def Handle.RestsOn : Handle → Base → Prop
  | relation r, b => r.RestsOn b
  | binary c, b => b = c
  | view v, b => v.relation.RestsOn b
  | extension _, _ | scan _, _ => False

namespace Session

variable {s s' : Session} {name : Option String} {b c : Base}

/-! ## What a session knows -/

/-- Whether a registry lists a stored relation, or something that has a name is built on it. -/
inductive Knows (s : Session) (b : Base) : Prop where
  | registered {registry : String} (h : b ∈ s.store.registry registry)
  | named {name : String} {h : Handle} (hname : s.handles.lookup name = some h)
      (hb : h.RestsOn b)

theorem Valid.holds_of_knows (hs : s.Valid) (h : s.Knows b) : s.store.Holds b := by
  cases h with
  | registered h => exact hs.store.registered h
  | @named name handle hname hb =>
    have hover := hs.handles hname
    cases handle with
    | relation r => exact Store.Built.holds_of_restsOn hover hb
    | binary c =>
      obtain rfl : b = c := hb
      exact hover
    | view v => exact Store.Built.holds_of_restsOn (Store.BuiltView.relation hover) hb
    | extension | scan => cases hb

theorem Valid.id_lt_of_knows (hs : s.Valid) (h : s.Knows b) : b.id < s.store.next := by
  obtain ⟨x, hx, -⟩ := (hs.holds_of_knows h).exists_lookup
  exact hs.store.next hx

/-- The relations under what a handle stands for are known. -/
theorem knows_of_relation {n : String} {r : Relation} (hr : s.relation n = .ok r)
    (h : r.RestsOn b) : s.Knows b := by
  unfold Session.relation at hr
  split at hr
  next hname => exact .named hname (Except.ok.inj hr ▸ h)
  next c hname =>
    obtain rfl := Except.ok.inj hr
    exact .named hname h.eq
  next => cases hr

/-- Nothing that a session has to offer is built on a relation that it does not know. -/
theorem knows_of_offers {k : Handle} (hk : s.Offers k) (h : k.RestsOn b) : s.Knows b := by
  cases hk with
  | kept hname => exact .named hname h
  | whole hr => exact knows_of_relation hr h
  | bound hr hv =>
    obtain ⟨-, rfl⟩ := Relation.view_of_bind hv
    exact knows_of_relation hr h
  | listed hlisted => exact Relation.RestsOn.eq h ▸ .registered hlisted
  | extension | scan => exact h.elim

theorem knows_of_store {store : Store} (hb : ({ s with store } : Session).Knows b)
    (hregistry : ∀ n, store.registry n = s.store.registry n) : s.Knows b := by
  cases hb with
  | @registered n hb => exact .registered (hregistry n ▸ hb)
  | named hname hb => exact .named hname hb

/-- A commit makes the relations of its staging known and no others. -/
theorem knows_of_commit {registry : String} {staging : Staging}
    (hb : ({ s with store := (s.store.commit registry staging).2 } : Session).Knows b) :
    s.Knows b ∨ b ∈ (s.store.stage staging).1 := by
  cases hb with
  | named hname hb => exact Or.inl (.named hname hb)
  | @registered n hb =>
    replace hb : b ∈ (s.store.commit registry staging).2.registry n := hb
    rw [Store.registry_commit, Store.commit_fst] at hb
    split at hb
    · rcases List.mem_append.mp hb with hb | hb
      · exact Or.inl (.registered hb)
      · exact Or.inr hb
    · exact Or.inl (.registered hb)

/-- To keep a handle makes known what the handle rests on and nothing else. -/
theorem knows_of_keep {h : Handle} (hb : (s.keep name h).Knows b) : s.Knows b ∨ h.RestsOn b := by
  cases hb with
  | registered hb =>
    rw [store_keep] at hb
    exact Or.inl (.registered hb)
  | named hname hb =>
    rcases lookup_of_keep hname with hname | rfl
    · exact Or.inl (.named hname hb)
    · exact Or.inr hb

/-! ## Steps -/

/-- What a step can do to the stored relations of a session: it makes relations as they are staged,
or it admits tuples to one relation that the session knows. -/
inductive Develops (s s' : Session) : Prop where
  | makes (staging : Staging)
      (hstaging : ∀ entry ∈ staging, entry.1.Declarable ∧ entry.1.properties.Guards entry.2)
      (hextensions : s'.store.extensions = (s.store.stage staging).2.extensions)
      (hknows : ∀ b, s'.Knows b → s.Knows b ∨ b ∈ (s.store.stage staging).1)
  | fills (b : Base) (tuples : List Tuple) (x : Extension) (hb : s.Knows b)
      (hx : b.insertAll (s.store.extension b) tuples = .ok x)
      (hextensions : s'.store.extensions = (s.store.refill b.id x).extensions)
      (hknows : ∀ b, s'.Knows b → s.Knows b)

/-- A step that changes no extension and makes no relation known stages nothing. -/
theorem Develops.of_knows (hextensions : s'.store.extensions = s.store.extensions)
    (hknows : ∀ b, s'.Knows b → s.Knows b) : s.Develops s' :=
  .makes [] (by simp) hextensions fun b hb => Or.inl (hknows b hb)

theorem Develops.refl (s : Session) : s.Develops s := .of_knows rfl fun _ h => h

theorem develops_keep (name : Option String) {h : Handle} (hh : ∀ b, h.RestsOn b → s.Knows b) :
    s.Develops (s.keep name h) := by
  refine .of_knows (by rw [store_keep]) fun b hb => ?_
  rcases knows_of_keep hb with hb | hb
  · exact hb
  · exact hh b hb

/-- A new relation without rows, in a registry or in none, under a name or under none. -/
theorem develops_declare {action : Action} {registry : Option String} {schema : Schema}
    {handle : Base → Handle} (h : action.Declares registry schema handle) (name : Option String) :
    s.Develops ({ s with store := (s.store.declare registry schema).2 }.keep name
      (handle (s.store.declare registry schema).1)) := by
  have hhandle : ∀ b c, (handle b).RestsOn c → c = b := by
    cases h with
    | plain => exact fun b c hc => Relation.RestsOn.eq hc
    | binary => exact fun b c hc => hc
  refine .makes [(schema, .empty schema.arity)] ?_ ?_ fun b hb => ?_
  · intro entry hentry
    obtain rfl := List.mem_singleton.mp hentry
    refine ⟨?_, PropertySet.guards_empty _ _⟩
    cases h with
    | plain hschema => exact Schema.declarable_of_plain hschema
    | binary hschema => exact Schema.declarable_of_binary hschema
  · rw [store_keep]
    exact Store.extensions_declare s.store registry schema
  · rcases knows_of_keep hb with hb | hb
    · cases registry with
      | none => exact Or.inl (knows_of_store hb fun _ => rfl)
      -- registering one relation commits a staging of one entry
      | some r => exact knows_of_commit hb
    · have hmade : (s.store.stage [(schema, .empty schema.arity)]).1 =
          [(s.store.declare registry schema).1] := by rw [Store.declare_fst]; rfl
      rw [hmade, List.mem_singleton]
      exact Or.inr (hhandle _ _ hb)

/-- To derive a relation and keep it under a name brings no stored relation with it. -/
theorem develops_derive {combinator : Combinator} {views : List View} {registry : String}
    {r : Relation} {store : Store} (hviews : ∀ v ∈ views, s.Offers (.view v))
    (h : s.store.derive combinator views registry = .ok (r, store)) (name : Option String) :
    s.Develops ({ s with store }.keep name (.relation r)) := by
  obtain ⟨hderive, rfl⟩ := Store.derive_eq_ok_iff.mp h
  refine .of_knows (by rw [store_keep]) fun b hb => ?_
  rcases knows_of_keep hb with hb | hb
  · exact knows_of_store hb fun _ => rfl
  · obtain ⟨v, hv, hb⟩ := Relation.RestsOn.of_derive hb hderive
    exact knows_of_offers (hviews v hv) hb

end Session

namespace Declaration

variable {d : Declaration} {staging staging' : Staging}

/-- Staging keeps to guards: tuples are admitted beside all that came before under the name. -/
theorem guards_of_stage (hdistinct : staging.Distinct)
    (hs : ∀ entry ∈ staging, entry.1.Declarable ∧ entry.1.properties.Guards entry.2)
    (h : d.stage staging = .ok staging') :
    ∀ entry ∈ staging', entry.1.Declarable ∧ entry.1.properties.Guards entry.2 := by
  rcases stage_cases (d := d) hdistinct with ⟨before, schema, x, after, rfl, -, -, heq⟩ | ⟨-, heq⟩
  · rw [heq] at h
    obtain ⟨-, -, h⟩ := bind_eq_ok_iff.mp h
    obtain ⟨y, hload, h⟩ := bind_eq_ok_iff.mp h
    rw [← Except.ok.inj h]
    rw [List.forall_mem_append, List.forall_mem_cons] at hs ⊢
    obtain ⟨hbefore, ⟨hschema, hx⟩, hafter⟩ := hs
    exact ⟨hbefore, ⟨hschema, Schema.guards_of_insertAll hx (mapError_eq_ok_iff.mp hload)⟩, hafter⟩
  · rw [heq] at h
    obtain ⟨schema, hschema, h⟩ := bind_eq_ok_iff.mp h
    obtain ⟨x, hload, h⟩ := bind_eq_ok_iff.mp h
    obtain ⟨hdeclarable, rfl⟩ := schema_eq_ok_iff.mp hschema
    rw [← Except.ok.inj h, List.forall_mem_append]
    refine ⟨hs, fun entry hentry => ?_⟩
    obtain rfl := List.mem_singleton.mp hentry
    exact ⟨hdeclarable, Schema.guards_of_insertAll (PropertySet.guards_empty _ _)
      (mapError_eq_ok_iff.mp hload)⟩

end Declaration

theorem Dataset.guards_of_staging {d : Dataset} {staging : Staging} (h : d.staging = .ok staging) :
    ∀ entry ∈ staging, entry.1.Declarable ∧ entry.1.properties.Guards entry.2 := by
  have hdistinct : Staging.Distinct [] := List.nodup_nil
  have hkept := invariant_of_foldlM_eq_ok
    (P := fun staging : Staging => staging.Distinct ∧
      ∀ entry ∈ staging, entry.1.Declarable ∧ entry.1.properties.Guards entry.2)
    (fun _ _ _ hs h =>
      ⟨Declaration.distinct_of_stage hs.1 h, Declaration.guards_of_stage hs.1 hs.2 h⟩)
    ⟨hdistinct, by simp⟩ h
  exact hkept.2

namespace Session

variable {s s' : Session} {name : Option String} {b c : Base}

/-- Whatever an action does, known relations grow by guarded insertions only, and new ones arrive
guarded. -/
theorem develops_of_acts {action : Action} (h : s.Acts name action s') : s.Develops s' := by
  cases h with
  | answers => exact .refl s
  | keeps _ hk => exact develops_keep name fun b => knows_of_offers hk
  | moves => exact develops_keep _ fun b hb => hb.elim
  | declares h => exact develops_declare h name
  | derives _ hviews h => exact develops_derive hviews h name
  | @fills _ tuples b _ hb h =>
    obtain ⟨x, hx, h⟩ := bind_eq_ok_iff.mp h
    obtain rfl := Except.ok.inj h
    exact .fills b tuples x (knows_of_relation hb (.base b)) hx rfl fun c hc =>
      knows_of_store hc fun _ => rfl
  | installs h =>
    obtain ⟨staging, hstaging, hcommit⟩ := Store.install_eq_commit_iff.mp h
    obtain rfl : (s.store.commit _ staging).2 = _ := congrArg Prod.snd hcommit
    refine .makes staging (Dataset.guards_of_staging hstaging) ?_ fun b hb => knows_of_commit hb
    rw [Store.commit_eq, Store.extensions_foldl_register]

/-! ## Runs -/

/-- What the stored relations that a session knows keep to. -/
structure Lawful (s : Session) : Prop where
  declarable : ∀ {b}, s.Knows b → b.toSchema.Declarable
  guards : ∀ {b}, s.Knows b → b.properties.Guards (s.store.extension b)
  unique : ∀ {b c}, s.Knows b → s.Knows c → b.id = c.id → b = c

theorem lawful_empty : empty.Lawful := by
  have hno : ∀ b, ¬ empty.Knows b := by
    intro b h
    cases h with
    | registered h => cases h
    | named hname => cases hname
  exact ⟨fun h => absurd h (hno _), fun h => absurd h (hno _), fun h => absurd h (hno _)⟩

theorem Lawful.develops (hs : s.Lawful) (hvalid : s.Valid) (h : s.Develops s') : s'.Lawful := by
  cases h with
  | makes staging hstaging hextensions hknows =>
    have hold : ∀ {b}, s.Knows b → s'.store.extension b = s.store.extension b := by
      intro b hb
      rw [Store.extension_congr hextensions, Store.extension_stage (hvalid.id_lt_of_knows hb)]
    -- a new relation has a number that no relation had before
    have hnew : ∀ {b c}, s.Knows b → c ∈ (s.store.stage staging).1 → b.id ≠ c.id := by
      intro b c hb hc
      exact Nat.ne_of_lt (Nat.lt_of_lt_of_le (hvalid.id_lt_of_knows hb)
        (Store.next_le_of_mem_stage hc))
    refine ⟨fun {b} hb => ?_, fun {b} hb => ?_, fun {b c} hb hc hid => ?_⟩
    · rcases hknows b hb with hb | hb
      · exact hs.declarable hb
      · exact (hstaging _ (Store.mem_of_mem_stage hb)).1
    · rcases hknows b hb with hb | hb
      · rw [hold hb]
        exact hs.guards hb
      · rw [Store.extension_congr hextensions]
        exact (hstaging _ (Store.mem_of_mem_stage hb)).2
    · rcases hknows b hb with hb | hb <;> rcases hknows c hc with hc | hc
      · exact hs.unique hb hc hid
      · exact absurd hid (hnew hb hc)
      · exact absurd hid.symm (hnew hc hb)
      · exact Store.eq_of_mem_stage hb hc hid
  | fills c tuples x hc hx hextensions hknows =>
    refine ⟨fun hb => hs.declarable (hknows _ hb), fun {b} hb => ?_,
      fun hb hc => hs.unique (hknows _ hb) (hknows _ hc)⟩
    rw [Store.extension_congr hextensions, Store.extension_refill]
    split
    next hid =>
      obtain rfl := hs.unique (hknows b hb) hc hid
      exact Schema.guards_of_insertAll (hs.guards hc) hx
    next => exact hs.guards (hknows b hb)

/-- Relations that nothing leads to make no difference. -/
theorem Lawful.of_keeps {store : Store} (hs : s.Lawful) (hvalid : s.Valid)
    (h : s.store.Keeps store) : Lawful { s with store } := by
  have hknows : ∀ {b}, ({ s with store } : Session).Knows b → s.Knows b :=
    fun hb => knows_of_store hb h.registry
  refine ⟨fun hb => hs.declarable (hknows hb), fun {b} hb => ?_,
    fun hb hc => hs.unique (hknows hb) (hknows hc)⟩
  show b.properties.Guards (store.extension b)
  rw [h.extension hvalid.store (hvalid.holds_of_knows (hknows hb))]
  exact hs.guards (hknows hb)

/-- By induction on the requests, every session that is reached is lawful. -/
theorem Reached.lawful (h : s.Reached) : s.Lawful := by
  refine Reached.induction ?start ?acts ?fails h
  case start => exact lawful_empty
  case acts =>
    intro s name action s' hs hacts ih
    exact ih.develops hs.valid (develops_of_acts hacts)
  case fails =>
    intro s staging hs _ ih
    exact ih.of_keeps hs.valid (s.store.keeps_stage staging)

/-- After any requests, a stored relation that the session knows declares no properties that exclude
each other; it holds no pair of an atom with itself if it is irreflexive; and if it is asymmetric, it
holds no two distinct atoms in both orders and is found to be antisymmetric. -/
theorem guards_hold (hs : s.Reached) (hb : s.Knows b) :
    (b.properties.irreflexive = true → ∀ a, [a, a] ∉ (s.store.extension b).rows) ∧
      (b.properties.asymmetric = true →
        (∀ a c, a ≠ c →
          ¬ ([a, c] ∈ (s.store.extension b).rows ∧ [c, a] ∈ (s.store.extension b).rows)) ∧
        (s.store.extension b).isAntisymmetric = true) ∧
      ¬ (b.properties.reflexive = true ∧ b.properties.irreflexive = true) ∧
      ¬ (b.properties.symmetric = true ∧ b.properties.asymmetric = true) := by
  have hguards := hs.lawful.guards hb
  have hdeclarable := hs.lawful.declarable hb
  refine ⟨hguards.irreflexive, fun hasymmetric => ?_,
    PropertySet.conflict?_eq_none_iff.mp hdeclarable.conflict⟩
  have hpairs := hguards.asymmetric hasymmetric
  have harity : b.arity = 2 := by
    refine hdeclarable.binary fun hempty => ?_
    rw [hempty] at hasymmetric
    cases hasymmetric
  have hholds := hs.valid.holds_of_knows hb
  refine ⟨fun a c hne h => hne (hpairs a c h.1 h.2), ?_⟩
  refine (Extension.isAntisymmetric_iff (hholds.arity_extension.trans harity) fun t ht => ?_).mpr
    hpairs
  rw [hs.valid.store.length_of_mem_extension hholds ht, harity]

/-- The requests of a small game. What beats what is added through two handles, in part in vain, and
goes round in a circle. -/
def gameRequests : List Request :=
  [.act (.declareBinary "beats" { irreflexive := true, asymmetric := true, transitive := true }
      (some "main")) (some "beats"),
   .act (.addAll "beats" [[.text "rock", .text "scissors"]]) none,
   .act (.find "main" "beats") (some "wins"),
   .act (.addAll "wins" [[.text "scissors", .text "paper"], [.text "paper", .text "scissors"]]) none,
   .act (.addAll "beats" [[.text "scissors", .text "paper"], [.text "rock", .text "rock"]]) none,
   .act (.addAll "wins" [[.text "scissors", .text "paper"], [.text "paper", .text "rock"]]) none]

def game : Session := (empty.run gameRequests).2

def gameBeats : Base where
  name := "beats"
  arity := 2
  properties := { irreflexive := true, asymmetric := true, transitive := true }
  id := 0

theorem reached_game : game.Reached := reached_run .empty gameRequests

theorem knows_gameBeats : game.Knows gameBeats := by
  have hregistry : game.store.registry "main" = [gameBeats] := rfl
  have hlisted : gameBeats ∈ game.store.registry "main" := by simp [hregistry]
  exact .registered hlisted

theorem guards_hold_gameBeats :
    (game.store.extension gameBeats).rows =
        [[.text "rock", .text "scissors"], [.text "scissors", .text "paper"],
          [.text "paper", .text "rock"]] ∧
      (∀ a, [a, a] ∉ (game.store.extension gameBeats).rows) ∧
      (game.store.extension gameBeats).isAntisymmetric = true :=
  have h := guards_hold reached_game knows_gameBeats
  ⟨rfl, h.1 rfl, (h.2.1 rfl).2⟩

end Session

end RelationAlgebra
