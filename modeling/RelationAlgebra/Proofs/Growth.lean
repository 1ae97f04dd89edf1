import RelationAlgebra.Proofs.Commit
import RelationAlgebra.Proofs.Session

/-!
# Stores only grow

Whatever is asked of a session, a stored relation keeps its rows and a registry keeps its relations,
each in its place, and what is new comes behind (`Session.Valid.extends_run`). What a single request
can do to the store is said once (`Session.Writes`): it admits tuples to one relation, it makes
relations, in the registry that it names if it names one (`Request.target?`), or it gives out
numbers.
-/

namespace RelationAlgebra

/-- A push leaves the rows that there are in their places. -/
theorem Extension.prefix_push (x : Extension) (t : Tuple) : x.rows <+: (x.push t).rows := by
  unfold Extension.push
  split
  · exact List.prefix_refl _
  · exact List.prefix_append _ _

theorem Schema.prefix_of_insertAll {schema : Schema} {x y : Extension} {tuples : List Tuple}
    (h : schema.insertAll x tuples = .ok y) : x.rows <+: y.rows := by
  refine invariant_of_foldlM_eq_ok (P := fun y => x.rows <+: y.rows) ?_ (List.prefix_refl _) h
  intro y t z hy hz
  obtain ⟨-, -, rfl⟩ := Schema.insert_eq_ok_iff.mp hz
  exact hy.trans (y.prefix_push t)

namespace Store

variable {s s' : Store} {b : Base} {registry : String} {schema : Schema} {staging : Staging}
  {tuples : List Tuple}

/-- Whether a store has everything that another one has, and has it in the same places. -/
structure Extends (s s' : Store) : Prop where
  grows : s.Grows s'
  rows : ∀ b, (s.extension b).rows <+: (s'.extension b).rows
  registry : ∀ name, s.registry name <+: s'.registry name

theorem Extends.refl (s : Store) : s.Extends s :=
  ⟨.refl s, fun _ => List.prefix_refl _, fun _ => List.prefix_refl _⟩

theorem Extends.trans {s₁ s₂ s₃ : Store} (h₁ : s₁.Extends s₂) (h₂ : s₂.Extends s₃) :
    s₁.Extends s₃ :=
  ⟨h₁.grows.trans h₂.grows, fun b => (h₁.rows b).trans (h₂.rows b),
    fun name => (h₁.registry name).trans (h₂.registry name)⟩

/-- A number that was not given yet stands for no rows. -/
theorem Valid.rows_eq_nil (hs : s.Valid) (h : s.next ≤ b.id) : (s.extension b).rows = [] := by
  cases hx : s.extensions.lookup b.id with
  | none => simp [Store.extension, hx, Extension.empty]
  | some x => exact absurd (hs.next hx) (Nat.not_lt.mpr h)

/-- Tuples are added to a stored relation by filling its extension again. -/
theorem addAll_base_eq_ok_iff :
    s.addAll (.base b) tuples = .ok s' ↔
      ∃ x, b.insertAll (s.extension b) tuples = .ok x ∧ s' = s.refill b.id x := by
  rw [addAll, bind_eq_ok_iff]
  refine exists_congr fun x => and_congr_right fun _ => ?_
  exact ⟨fun h => (Except.ok.inj h).symm, fun h => congrArg _ h.symm⟩

theorem Valid.extends_addAll (hs : s.Valid) (hb : s.Holds b)
    (h : s.addAll (.base b) tuples = .ok s') : s.Extends s' := by
  have hgrows : s.Grows s' := (hs.addAll (fun c hc => by cases hc; exact hb) h).2
  obtain ⟨x, hx, rfl⟩ := addAll_base_eq_ok_iff.mp h
  refine ⟨hgrows, fun c => ?_, fun _ => List.prefix_refl _⟩
  rw [extension_refill]
  split
  next hid => exact hb.extension_eq hid.symm ▸ Schema.prefix_of_insertAll hx
  next => exact List.prefix_refl _

/-- The store with staged relations made, and registered where a registry is named. -/
def make (s : Store) (registry : Option String) (staging : Staging) : Store :=
  match registry with
  | some name => (s.commit name staging).2
  | none => (s.stage staging).2

/-- To declare a relation is to make one staged relation without rows. -/
theorem declare_eq_make (s : Store) (registry : Option String) (schema : Schema) :
    (s.declare registry schema).2 = s.make registry [(schema, .empty schema.arity)] := by
  cases registry <;> rfl

theorem extension_make (target : Option String) (h : b.id < s.next) :
    (s.make target staging).extension b = s.extension b := by
  cases target with
  | none => exact extension_stage h
  | some name => rw [make, extension_commit, extension_stage h]

/-- What is made is listed behind the others in the target, and nowhere else. -/
theorem registry_make (s : Store) (target : Option String) (staging : Staging) (name : String) :
    (s.make target staging).registry name =
      if target = some name then s.registry name ++ (s.stage staging).1 else s.registry name := by
  cases target with
  | none => rw [make, Store.registry, Store.registry, registries_stage, if_neg (by simp)]
  | some name' =>
    rw [make, registry_commit, commit_fst]
    by_cases h : name = name'
    · rw [h, if_pos rfl, if_pos rfl]
    · have hne : some name' ≠ some name := fun e => h (Option.some.inj e).symm
      rw [if_neg h, if_neg hne]

theorem Valid.grows_make (hs : s.Valid) (h : staging.Valid) (target : Option String) :
    s.Grows (s.make target staging) := by
  cases target with
  | none => exact (hs.stage h).2
  | some name => exact (hs.commit h name).2

/-- To make relations takes nothing away and moves nothing. -/
theorem Valid.extends_make (hs : s.Valid) (h : staging.Valid) (target : Option String) :
    s.Extends (s.make target staging) := by
  refine ⟨hs.grows_make h target, fun b => ?_, fun name => ?_⟩
  · by_cases hid : b.id < s.next
    · simp only [extension_make target hid, List.prefix_refl]
    · rw [hs.rows_eq_nil (Nat.not_lt.mp hid)]
      exact List.nil_prefix
  · rw [registry_make]
    split
    · exact List.prefix_append _ _
    · exact List.prefix_refl _

theorem extends_next {next : Nat} (h : s.next ≤ next) : s.Extends { s with next } :=
  ⟨⟨fun hb => hb, fun hid => ⟨Nat.lt_of_lt_of_le hid.1 h, hid.2⟩⟩, fun _ => List.prefix_refl _,
    fun _ => List.prefix_refl _⟩

end Store

/-- The registry for the relations that a request makes. -/
def Request.target? : Request → Option String
  | .act (.declare _ _ registry) _ | .act (.declareBinary _ _ registry) _ => registry
  | .act (.install registry _) _ | .load registry _ => some registry
  | _ => none

namespace Session

variable {s s' : Session} {action : Action} {request : Request}

/-- What a request can do to the store. -/
inductive Writes (s : Session) : Request → Store → Prop
  /-- Tuples are admitted to a stored relation. -/
  | fills {relation : String} {tuples : List Tuple} {name : Option String} {b : Base}
      {store : Store} (hb : s.relation relation = .ok (.base b))
      (h : s.store.addAll (.base b) tuples = .ok store) :
      Writes s (.act (.addAll relation tuples) name) store
  /-- Relations are made. -/
  | makes {request : Request} {staging : Staging} (h : staging.Valid) :
      Writes s request (s.store.make request.target? staging)
  /-- At most numbers are given out. -/
  | counts {request : Request} {next : Nat} (h : s.store.next ≤ next) :
      Writes s request { s.store with next }

theorem Writes.refl (s : Session) (request : Request) : s.Writes request s.store :=
  .counts (Nat.le_refl _)

theorem Writes.declares {schema : Schema} {registry : Option String}
    (h : request.target? = registry) :
    s.Writes request (s.store.declare registry schema).2 := by
  have hvalid : Staging.Valid [(schema, .empty schema.arity)] :=
    Staging.valid_nil.append ⟨Extension.valid_empty _, rfl⟩
  rw [Store.declare_eq_make, ← h]
  exact .makes hvalid

/-- A request writes what its action comes to. -/
theorem writes_of_acts (haction : request.action? = some action)
    (h : s.Acts request.name? action s') : s.Writes request s'.store := by
  cases h with
  | answers => exact .refl s _
  | keeps | moves =>
    rw [store_keep]
    exact .refl s _
  | declares h =>
    rw [store_keep]
    refine .declares ?_
    rcases Request.cases_of_action? haction with ⟨name, rfl⟩ | ⟨_, _, _, -, rfl⟩
    · cases h <;> rfl
    · cases h
  | derives _ _ h =>
    obtain ⟨-, rfl⟩ := Store.derive_eq_ok_iff.mp h
    rw [store_keep]
    exact .counts (Nat.le_succ _)
  | fills hb h =>
    rcases Request.cases_of_action? haction with ⟨name, rfl⟩ | ⟨_, _, _, -, heq⟩
    · exact .fills hb h
    · cases heq
  | @installs registry d bs store h =>
    obtain ⟨staging, hstaging, hcommit⟩ := Store.install_eq_commit_iff.mp h
    have htarget : request.target? = some registry := by
      rcases Request.cases_of_action? haction with ⟨name, rfl⟩ | ⟨_, _, _, rfl, heq⟩
      · rfl
      · cases heq
        rfl
    have hstore : store = s.store.make request.target? staging := by
      rw [htarget, Store.make, hcommit]
    rw [hstore]
    exact .makes (Dataset.valid_of_staging hstaging)

/-- A request writes in one of these ways, or it fails and writes nothing. -/
theorem writes_step (s : Session) (request : Request) :
    s.Writes request (s.step request).2.store :=
  step_induction (motive := fun s' => s.Writes request s'.store) (.refl s _)
    fun _ _ haction h => writes_of_acts haction h

/-- Whatever a request writes, the store is extended by it. -/
theorem Valid.extends_of_writes (hs : s.Valid) {store : Store} (h : s.Writes request store) :
    s.store.Extends store := by
  cases h with
  | fills hb hadd => exact hs.store.extends_addAll (hs.built hb).holds hadd
  | makes hstaging => exact hs.store.extends_make hstaging _
  | counts hnext => exact Store.extends_next hnext

/-- After any requests, everything is still there and in its place. -/
theorem Valid.extends_run (hs : s.Valid) (requests : List Request) :
    s.store.Extends (s.run requests).2.store := by
  induction requests generalizing s with
  | nil => exact .refl _
  | cons request requests ih =>
    have hstep := hs.extends_of_writes (writes_step s request)
    exact hstep.trans (ih (hs.step request))

end Session

end RelationAlgebra
