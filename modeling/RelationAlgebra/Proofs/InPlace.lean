import RelationAlgebra.Proofs.Staging

/-!
# Writing in place

The operations of a store give a new store only where they succeed. Here they write to the one store
that there is, as they go: a failure ends them, but takes back nothing that they wrote before. An
installation makes and fills relations long before it is known whether the last declaration loads.

Each computation gives what the operation gives, and where the operation fails, only staged rows
stay behind, of relations that no registry lists (`InPlace.Realizes`).
-/

namespace RelationAlgebra

/-! ## Computations -/

/-- A computation that writes to a store as it goes. What it wrote before a failure stays. -/
abbrev InPlace (ε : Type) : Type → Type := ExceptT ε (StateM Store)

namespace InPlace

variable {ε ε' α β : Type} {s s' : Store}

/-- What comes of a computation on a store, and the store after it. -/
def perform (x : InPlace ε α) (s : Store) : Except ε α × Store := StateT.run (ExceptT.run x) s

/-- A new stored relation without rows. -/
def create (schema : Schema) : InPlace ε Base :=
  modifyGet fun s => s.create schema (.empty schema.arity)

/-- Puts a relation at the end of a registry. -/
def register (registry : String) (b : Base) : InPlace ε Unit :=
  modify fun s => s.register registry b

/-- A new stored relation without rows, in a registry if one is named. -/
def declare (registry : Option String) (schema : Schema) : InPlace ε Base := do
  let b ← create schema
  match registry with
  | some name => register name b
  | none => pure ()
  return b

/-- A new derived relation. -/
def derive (combinator : Combinator) (operands : List View) (registry : String) :
    InPlace RelationError Relation := do
  let r ← Relation.derive (← get).next combinator operands registry
  modify fun s => { s with next := s.next + 1 }
  return r

/-- Admits tuples to a copy of the rows of a stored relation, which takes the place of the rows when
all tuples are in it. -/
def addAll (r : Relation) (tuples : List Tuple) : InPlace RelationError Unit :=
  match r with
  | .base b => do
    let x ← b.insertAll ((← get).extension b) tuples
    modify fun s => s.refill b.id x
  | derived => throw (.readOnly derived.name)

/-- Adds the tuples of a declaration to a relation. -/
def load (d : Declaration) (b : Base) : InPlace InstallError Unit :=
  (addAll (.base b) (d.entries.map Entry.tuple)).adapt (.loading d.name)

/-- Makes the relation that is declared, unless it was made for an earlier declaration, and adds the
tuples of the declaration to it. -/
def stage (made : List Base) (d : Declaration) : InPlace InstallError (List Base) := do
  match made.find? fun b => b.name == d.name with
  | some b =>
    let _ ← d.merge b.toSchema
    load d b
    return made
  | none =>
    let b ← create (← d.schema)
    load d b
    return made ++ [b]

/-- Makes and fills the relations of a dataset one declaration after another, and registers them in
the end. -/
def install (registry : String) (d : Dataset) : InPlace InstallError (List Base) := do
  let made ← d.relations.foldlM stage []
  made.forM (register registry)
  return made

/-- A step that fails is the last one, and what was written before it stays. -/
theorem perform_bind (x : InPlace ε α) (f : α → InPlace ε β) (s : Store) :
    (x >>= f).perform s = match x.perform s with
      | (.ok a, s') => (f a).perform s'
      | (.error e, s') => (.error e, s') := by
  unfold perform ExceptT.run StateT.run
  simp only [bind, ExceptT.bind, ExceptT.mk, StateT.bind, ExceptT.bindCont]
  rcases x s with ⟨a | e, s'⟩ <;> rfl

theorem perform_pure (a : α) (s : Store) : perform (pure a : InPlace ε α) s = (.ok a, s) := rfl

theorem perform_lift (x : Except ε α) (s : Store) : perform (liftM x) s = (x, s) := rfl

/-- A relation that is made stands in the store at once. -/
theorem perform_create (schema : Schema) (s : Store) :
    perform (create schema : InPlace ε Base) s =
      (.ok (s.create schema (.empty schema.arity)).1,
        (s.create schema (.empty schema.arity)).2) := rfl

theorem perform_register (registry : String) (b : Base) (s : Store) :
    perform (register registry b : InPlace ε Unit) s = (.ok (), s.register registry b) := rfl

/-- Relations are registered one by one, in the order of the list. -/
theorem perform_forM_register (registry : String) (bs : List Base) (s : Store) :
    perform (bs.forM (register registry) : InPlace ε Unit) s =
      (.ok (), bs.foldl (fun s b => s.register registry b) s) := by
  induction bs generalizing s with
  | nil => rfl
  | cons b bs ih =>
    have hcons : (b :: bs).forM (register registry) =
        (register registry b >>= fun _ => bs.forM (register registry) : InPlace ε Unit) := rfl
    rw [hcons, perform_bind, perform_register]
    exact ih _

theorem perform_adapt (f : ε → ε') (x : InPlace ε α) (s : Store) :
    perform (x.adapt f : InPlace ε' α) s = ((x.perform s).1.mapError f, (x.perform s).2) := rfl

theorem perform_addAll (r : Relation) (tuples : List Tuple) (s : Store) :
    perform (addAll r tuples) s = match s.addAll r tuples with
      | .ok s' => (.ok (), s')
      | .error e => (.error e, s) := by
  cases r with
  | base b =>
    have hsteps : perform (addAll (.base b) tuples) s =
        perform (liftM (b.insertAll (s.extension b) tuples) >>= fun x =>
          modify fun s => s.refill b.id x) s := rfl
    rw [hsteps, perform_bind, perform_lift, Store.addAll]
    cases b.insertAll (s.extension b) tuples <;> rfl
  | union | intersection | complement | composition | converse => rfl

theorem perform_load (d : Declaration) (b : Base) (s : Store) :
    perform (load d b) s = match d.load b.toSchema (s.extension b) with
      | .ok x => (.ok (), s.refill b.id x)
      | .error e => (.error e, s) := by
  rw [load, perform_adapt, perform_addAll, Store.addAll, Declaration.load]
  cases b.insertAll (s.extension b) (d.entries.map Entry.tuple) <;> rfl

/-! ## What stays behind -/

/-- Whether what comes of a computation on `s` is what is wanted. A failure leaves the store with
staged rows behind. -/
inductive Realizes (s : Store) : Except ε (α × Store) → Except ε α × Store → Prop where
  | ok (a : α) (s' : Store) : Realizes s (.ok (a, s')) (.ok a, s')
  | error (e : ε) (staging : Staging) (h : staging.Valid) :
    Realizes s (.error e) (.error e, (s.stage staging).2)

theorem Realizes.eq_of_ok {a : α} {got : Except ε α × Store}
    (h : Realizes s (.ok (a, s')) got) : got = (.ok a, s') := by
  cases h
  rfl

theorem Realizes.exists_of_error {e : ε} {got : Except ε α × Store}
    (h : Realizes s (.error e) got) :
    ∃ left : Staging, left.Valid ∧ got = (.error e, (s.stage left).2) := by
  cases h with
  | error _ left hleft => exact ⟨left, hleft, rfl⟩

/-- A computation that fails before it writes. -/
theorem Realizes.unwritten (s : Store) (e : ε) :
    Realizes s (.error e : Except ε (α × Store)) (.error e, s) :=
  .error e [] Staging.valid_nil

/-- A declaration is checked before the relation is made. -/
theorem realizes_declare (registry : Option String) (schema : Except ε Schema) (s : Store) :
    Realizes s (do return s.declare registry (← schema))
      (perform (do declare registry (← schema)) s) := by
  cases schema with
  | error e => exact .unwritten s e
  | ok schema => cases registry <;> exact .ok _ _

/-- A derivation is checked before a number is taken. -/
theorem realizes_derive (combinator : Combinator) (operands : List View) (registry : String)
    (s : Store) :
    Realizes s (s.derive combinator operands registry)
      (perform (derive combinator operands registry) s) := by
  have hsteps : perform (derive combinator operands registry) s =
      perform (liftM (Relation.derive s.next combinator operands registry) >>= fun r => do
        modify fun s => { s with next := s.next + 1 }
        return r) s := rfl
  rw [hsteps, perform_bind, perform_lift, Store.derive]
  cases Relation.derive s.next combinator operands registry with
  | error e => exact .unwritten s e
  | ok r => exact .ok _ _

theorem realizes_addAll (r : Relation) (tuples : List Tuple) (s : Store) :
    Realizes s ((s.addAll r tuples).map fun s' => ((), s')) (perform (addAll r tuples) s) := by
  rw [perform_addAll]
  cases s.addAll r tuples with
  | error e => exact .unwritten s e
  | ok s' => exact .ok _ _

/-! ## Installation -/

variable {made : List Base} {d : Declaration} {staging : Staging}

/-- A name that was staged before has to agree with its relation, and its tuples go there. -/
theorem perform_stage_of_some {b : Base}
    (h : made.find? (fun b => b.name == d.name) = some b) :
    perform (stage made d) s = match d.merge b.toSchema with
      | .ok _ =>
        match d.load b.toSchema (s.extension b) with
        | .ok x => (.ok made, s.refill b.id x)
        | .error e => (.error e, s)
      | .error e => (.error e, s) := by
  have hsteps : stage made d = (do
      let _ ← d.merge b.toSchema
      load d b
      return made) := by
    rw [stage, h]
  rw [hsteps, perform_bind, perform_lift]
  cases d.merge b.toSchema with
  | error e => rfl
  | ok =>
    simp only [perform_bind, perform_load]
    cases d.load b.toSchema (s.extension b) <;> rfl

/-- A new name makes a relation first and fills it then, so a failure leaves the relation without
rows. -/
theorem perform_stage_of_none (h : made.find? (fun b => b.name == d.name) = none) :
    perform (stage made d) s = match d.schema with
      | .ok schema =>
        match d.load schema (.empty schema.arity) with
        | .ok x => (.ok (made ++ [(s.create schema x).1]), (s.create schema x).2)
        | .error e => (.error e, (s.create schema (.empty schema.arity)).2)
      | .error e => (.error e, s) := by
  have hsteps : stage made d = (do
      let b ← create (← d.schema)
      load d b
      return made ++ [b]) := by
    rw [stage, h]
  rw [hsteps, perform_bind, perform_lift]
  cases d.schema with
  | error e => rfl
  | ok schema =>
    simp only [perform_bind, perform_create, perform_load, Store.extension_create]
    have hschema : (s.create schema (.empty schema.arity)).1.toSchema = schema := rfl
    rw [hschema]
    cases d.load schema (.empty schema.arity) with
    | error e => rfl
    | ok x =>
      have hrefill := Store.refill_create s schema (.empty schema.arity) x
      simp only [perform_pure, ← hrefill]
      rfl

/-- What one declaration does to staged relations in place is what it does to the staging. -/
theorem realizes_stage (hdistinct : staging.Distinct) (hvalid : staging.Valid) (d : Declaration)
    (s : Store) :
    Realizes s ((d.stage staging).map s.stage)
      (perform (stage (s.stage staging).1 d) (s.stage staging).2) := by
  rcases Declaration.stage_cases (d := d) hdistinct with
    ⟨before, schema, x, after, rfl, hname, hbefore, heq⟩ | ⟨hno, heq⟩
  -- a relation of this name is staged: its rows are copied, and written back if all tuples load
  · have hschema : (s.staged before schema).toSchema = schema := rfl
    rw [heq, perform_stage_of_some (Store.find?_stage_eq_some hname hbefore),
      Store.extension_staged, hschema]
    cases d.merge schema with
    | error e => exact .error e _ hvalid
    | ok =>
      cases d.load schema x with
      | error e => exact .error e _ hvalid
      | ok y =>
        show Realizes s (.ok (s.stage (before ++ (schema, y) :: after))) _
        rw [s.refill_staged before schema x y after]
        exact .ok _ _
  -- the name is new
  · rw [heq, perform_stage_of_none (Store.find?_stage_eq_none hno)]
    cases d.schema with
    | error e => exact .error e _ hvalid
    | ok schema =>
      simp only [bind, Except.bind]
      cases d.load schema (.empty schema.arity) with
      | error e =>
        -- the relation was made before its tuples were refused, so it stays behind without rows
        have hleft : Staging.Valid (staging ++ [(schema, .empty schema.arity)]) :=
          hvalid.append ⟨Extension.valid_empty schema.arity, rfl⟩
        have herror := Realizes.error (s := s) (α := List Base) e _ hleft
        rw [Store.stage_append] at herror
        exact herror
      | ok x =>
        show Realizes s (.ok (s.stage (staging ++ [(schema, x)]))) _
        rw [Store.stage_append]
        exact .ok _ _

/-- Declaration after declaration, what is made in place is what is staged. -/
theorem realizes_foldlM_stage (hdistinct : staging.Distinct) (hvalid : staging.Valid)
    (ds : List Declaration) (s : Store) :
    Realizes s ((ds.foldlM Declaration.stage staging).map s.stage)
      (perform (ds.foldlM stage (s.stage staging).1) (s.stage staging).2) := by
  induction ds generalizing staging with
  | nil => exact .ok _ _
  | cons d ds ih =>
    have hstep := realizes_stage hdistinct hvalid d s
    rw [List.foldlM_cons, List.foldlM_cons, perform_bind]
    cases hd : d.stage staging with
    | error e =>
      rw [hd] at hstep
      obtain ⟨left, hleft, hgot⟩ := hstep.exists_of_error
      rw [hgot]
      exact .error e left hleft
    | ok staging' =>
      rw [hd] at hstep
      rw [hstep.eq_of_ok]
      exact ih (Declaration.distinct_of_stage hdistinct hd)
        (Declaration.valid_of_stage hvalid hd)

/-- An installation in place comes to the result of the staged one, or fails with its error. -/
theorem realizes_install (registry : String) (d : Dataset) (s : Store) :
    Realizes s (s.install registry d) (perform (install registry d) s) := by
  have hdistinct : Staging.Distinct [] := List.nodup_nil
  have hstage := realizes_foldlM_stage hdistinct Staging.valid_nil d.relations s
  rw [install, perform_bind, Store.install, Dataset.staging]
  cases h : d.relations.foldlM Declaration.stage [] with
  | error e =>
    rw [h] at hstage
    obtain ⟨left, hleft, hgot⟩ := hstage.exists_of_error
    have hgot' : perform (d.relations.foldlM stage []) s = (.error e, (s.stage left).2) := hgot
    rw [hgot']
    exact .error e left hleft
  | ok staging =>
    rw [h] at hstage
    have hgot : perform (d.relations.foldlM stage []) s =
        (.ok (s.stage staging).1, (s.stage staging).2) := hstage.eq_of_ok
    rw [hgot]
    simp only [perform_bind, perform_forM_register]
    show Realizes s (.ok (s.commit registry staging)) _
    rw [Store.commit_eq]
    exact .ok _ _

end InPlace

end RelationAlgebra
