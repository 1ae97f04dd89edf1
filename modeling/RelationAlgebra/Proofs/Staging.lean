import RelationAlgebra.Proofs.Frame

/-!
# Staged relations

A dataset is staged before its relations enter a store. The relations of a staging can as well be
made in the store at once, filled there as further declarations load, and registered in the end: the
store is the same (`Store.commit_eq`, `Store.refill_staged`). Until they are registered, nothing in
the store depends on them (`Store.keeps_stage`).
-/

namespace RelationAlgebra

namespace Store

variable {s : Store} {staging : Staging} {schema : Schema} {x : Extension} {b : Base} {id : Nat}

/-- The store with staged relations made in turn but not registered, and the relations. -/
def stage (s : Store) : Staging → List Base × Store
  | [] => ([], s)
  | (schema, x) :: staging =>
    let (b, s) := s.create schema x
    let (bs, s) := s.stage staging
    (b :: bs, s)

/-- The store with other rows under a number. -/
def refill (s : Store) (id : Nat) (x : Extension) : Store :=
  { s with extensions := Association.set id x s.extensions }

theorem stage_cons (s : Store) (schema : Schema) (x : Extension) (staging : Staging) :
    s.stage ((schema, x) :: staging) =
      ((s.create schema x).1 :: ((s.create schema x).2.stage staging).1,
        ((s.create schema x).2.stage staging).2) := rfl

theorem stage_append (s : Store) (first second : Staging) :
    s.stage (first ++ second) =
      ((s.stage first).1 ++ ((s.stage first).2.stage second).1,
        ((s.stage first).2.stage second).2) := by
  induction first generalizing s with
  | nil => rfl
  | cons entry first ih => rw [List.cons_append, stage_cons, stage_cons, ih]; rfl

/-- To register a relation before or after the others are staged makes no difference. -/
theorem stage_register (s : Store) (registry : String) (b : Base) (staging : Staging) :
    (s.register registry b).stage staging =
      ((s.stage staging).1, (s.stage staging).2.register registry b) := by
  induction staging generalizing s with
  | nil => rfl
  | cons entry staging ih =>
    have hcreate : ((s.register registry b).create entry.1 entry.2).2 =
        (s.create entry.1 entry.2).2.register registry b := rfl
    rw [stage_cons, stage_cons, hcreate, ih]
    rfl

theorem commit_cons (s : Store) (registry : String) (schema : Schema) (x : Extension)
    (staging : Staging) :
    s.commit registry ((schema, x) :: staging) =
      ((s.create schema x).1 :: (((s.create schema x).2.register registry
          (s.create schema x).1).commit registry staging).1,
        (((s.create schema x).2.register registry (s.create schema x).1).commit registry
          staging).2) := rfl

/-- Making and registering relations in turn is making them all and then registering them. -/
theorem commit_eq (s : Store) (registry : String) (staging : Staging) :
    s.commit registry staging =
      ((s.stage staging).1,
        (s.stage staging).1.foldl (fun s b => s.register registry b) (s.stage staging).2) := by
  induction staging generalizing s with
  | nil => rfl
  | cons entry staging ih => rw [commit_cons, ih, stage_register, stage_cons, List.foldl_cons]

/-- No number that was given before gets other rows. -/
theorem lookup_stage (h : id < s.next) :
    (s.stage staging).2.extensions.lookup id = s.extensions.lookup id := by
  induction staging generalizing s with
  | nil => rfl
  | cons entry staging ih =>
    rw [stage_cons, ih (Nat.lt_succ_of_lt h), lookup_create, if_neg (Nat.ne_of_lt h)]

theorem extension_stage (h : b.id < s.next) :
    (s.stage staging).2.extension b = s.extension b := by
  rw [extension, extension, lookup_stage h]

/-- What is staged is in no registry yet. -/
theorem registries_stage (s : Store) (staging : Staging) :
    (s.stage staging).2.registries = s.registries := by
  induction staging generalizing s with
  | nil => rfl
  | cons entry staging ih => rw [stage_cons, ih]; rfl

/-- Staging changes nothing that was there before. -/
theorem keeps_stage (s : Store) (staging : Staging) : s.Keeps (s.stage staging).2 :=
  ⟨registries_stage s staging, lookup_stage⟩

theorem Valid.stage (hs : s.Valid) (h : staging.Valid) :
    (s.stage staging).2.Valid ∧ s.Grows (s.stage staging).2 := by
  induction staging generalizing s with
  | nil => exact ⟨hs, .refl s⟩
  | cons entry staging ih =>
    rw [Staging.Valid, List.forall_mem_cons] at h
    obtain ⟨hvalid, hgrows, -⟩ := hs.create entry.1 h.1.1 h.1.2
    obtain ⟨hvalid', hgrows'⟩ := ih hvalid h.2
    exact ⟨hvalid', hgrows.trans hgrows'⟩

/-- The relations that are made have the staged schemas, in their order. -/
theorem map_toSchema_stage (s : Store) (staging : Staging) :
    (s.stage staging).1.map Base.toSchema = staging.map Prod.fst := by
  induction staging generalizing s with
  | nil => rfl
  | cons entry staging ih => rw [stage_cons, List.map_cons, List.map_cons, ih]; rfl

theorem lookup_create_next (s : Store) (schema : Schema) (x : Extension) :
    (s.create schema x).2.extensions.lookup s.next = some x := by
  rw [lookup_create, if_pos rfl]

theorem extension_create (s : Store) (schema : Schema) (x : Extension) :
    (s.create schema x).2.extension (s.create schema x).1 = x := by
  have hid : (s.create schema x).1.id = s.next := rfl
  rw [extension, hid, lookup_create_next, Option.getD_some]

/-- To fill a new relation again is to make it with the later rows. -/
theorem refill_create (s : Store) (schema : Schema) (x y : Extension) :
    (s.create schema x).2.refill s.next y = (s.create schema y).2 := by
  simp only [refill, create, Association.set_set]

/-- New rows for a relation that was there before may as well be written before staging. -/
theorem refill_stage (hid : id < s.next) (hx : s.extensions.lookup id = some x) (y : Extension)
    (staging : Staging) :
    (s.refill id y).stage staging = ((s.stage staging).1, (s.stage staging).2.refill id y) := by
  induction staging generalizing s with
  | nil => rfl
  | cons entry staging ih =>
    -- the number of the next relation is another one, so its rows are written independently
    have hcreate : ((s.refill id y).create entry.1 entry.2).2 =
        (s.create entry.1 entry.2).2.refill id y := by
      simp only [refill, create, Association.set_comm (Nat.ne_of_lt hid) hx]
    have hx' : (s.create entry.1 entry.2).2.extensions.lookup id = some x := by
      rw [lookup_create, if_neg (Nat.ne_of_lt hid), hx]
    rw [stage_cons, stage_cons, hcreate, ih (Nat.lt_succ_of_lt hid) hx']
    rfl

/-! ### One staged relation -/

variable {before after : Staging} {name : String}

/-- The relation that is staged after others. -/
def staged (s : Store) (before : Staging) (schema : Schema) : Base :=
  { schema with id := (s.stage before).2.next }

theorem stage_append_cons (s : Store) (before : Staging) (schema : Schema) (x : Extension)
    (after : Staging) :
    s.stage (before ++ (schema, x) :: after) =
      ((s.stage before).1 ++
          s.staged before schema :: (((s.stage before).2.create schema x).2.stage after).1,
        (((s.stage before).2.create schema x).2.stage after).2) := by
  rw [stage_append, stage_cons]
  rfl

theorem find?_stage_eq_none (h : ∀ entry ∈ staging, entry.1.name ≠ name) :
    (s.stage staging).1.find? (fun b => b.name == name) = none := by
  refine List.find?_eq_none.mpr fun b hb => ?_
  have hschema : b.toSchema ∈ staging.map Prod.fst := by
    rw [← map_toSchema_stage s]
    exact List.mem_map_of_mem hb
  obtain ⟨entry, hentry, heq⟩ := List.mem_map.mp hschema
  simpa [← heq] using h entry hentry

/-- Among the relations that are made the first one with a name is found. -/
theorem find?_stage_eq_some (hname : schema.name = name)
    (hbefore : ∀ entry ∈ before, entry.1.name ≠ name) :
    (s.stage (before ++ (schema, x) :: after)).1.find? (fun b => b.name == name) =
      some (s.staged before schema) := by
  have hfirst : ((s.staged before schema).name == name) = true := beq_iff_eq.mpr hname
  rw [stage_append_cons, List.find?_append, find?_stage_eq_none hbefore, List.find?_cons, hfirst]
  rfl

theorem extension_staged (s : Store) (before : Staging) (schema : Schema) (x : Extension)
    (after : Staging) :
    (s.stage (before ++ (schema, x) :: after)).2.extension (s.staged before schema) = x := by
  rw [stage_append_cons, extension_stage (Nat.lt_succ_self _)]
  exact extension_create _ schema x

/-- New rows for a staged relation may as well be written when the relation is made. -/
theorem refill_staged (s : Store) (before : Staging) (schema : Schema) (x y : Extension)
    (after : Staging) :
    s.stage (before ++ (schema, y) :: after) =
      ((s.stage (before ++ (schema, x) :: after)).1,
        (s.stage (before ++ (schema, x) :: after)).2.refill (s.staged before schema).id y) := by
  have hid : (s.staged before schema).id = (s.stage before).2.next := rfl
  have hnext : (s.stage before).2.next < ((s.stage before).2.create schema x).2.next :=
    Nat.lt_succ_self _
  have hrefill := refill_stage hnext (lookup_create_next (s.stage before).2 schema x) y after
  rw [refill_create] at hrefill
  rw [stage_append_cons, stage_append_cons, hrefill, hid]

end Store

/-- Whether staged relations have different names. -/
def Staging.Distinct (staging : Staging) : Prop := (staging.map fun entry => entry.1.name).Nodup

namespace Declaration

variable {d : Declaration} {staging staging' : Staging} {schema : Schema} {x : Extension}

theorem name_of_schema (h : d.schema = .ok schema) : schema.name = d.name := by
  unfold Declaration.schema at h
  split at h
  · obtain h := mapError_eq_ok_iff.mp h
    unfold Schema.plain at h
    split at h
    · cases h
    · rw [← Except.ok.inj h]
  · split at h
    · cases h
    · obtain ⟨-, -, h⟩ := bind_eq_ok_iff.mp (mapError_eq_ok_iff.mp h)
      rw [← Except.ok.inj h]

/-- The parts of a staging around the relation of the name of a declaration. -/
theorem exists_append_of_find? (hs : staging.Distinct)
    (h : staging.find? (fun entry => entry.1.name == d.name) = some (schema, x)) :
    ∃ before after, staging = before ++ (schema, x) :: after ∧ schema.name = d.name ∧
      (∀ entry ∈ before, entry.1.name ≠ d.name) ∧ ∀ entry ∈ after, entry.1.name ≠ d.name := by
  obtain ⟨hname, before, after, rfl, hbefore⟩ := List.find?_eq_some_iff_append.mp h
  have hname' : schema.name = d.name := by simpa using hname
  refine ⟨before, after, rfl, hname', by simpa using hbefore, fun entry hentry heq => ?_⟩
  rw [Staging.Distinct, List.map_append, List.map_cons, List.nodup_append, List.nodup_cons] at hs
  exact hs.2.1.1 (List.mem_map.mpr ⟨entry, hentry, heq.trans hname'.symm⟩)

/-- What a declaration does to a staging: it refills the relation of its name where there is one,
and is a new relation at the end where there is none. -/
theorem stage_cases (hs : staging.Distinct) :
    (∃ before schema x after, staging = before ++ (schema, x) :: after ∧ schema.name = d.name ∧
      (∀ entry ∈ before, entry.1.name ≠ d.name) ∧
      d.stage staging = do
        let _ ← d.merge schema
        let y ← d.load schema x
        return before ++ (schema, y) :: after) ∨
    ((∀ entry ∈ staging, entry.1.name ≠ d.name) ∧
      d.stage staging = do
        let schema ← d.schema
        let x ← d.load schema (.empty schema.arity)
        return staging ++ [(schema, x)]) := by
  cases h : staging.find? fun entry => entry.1.name == d.name with
  | none =>
    refine Or.inr ⟨by simpa using h, ?_⟩
    rw [Declaration.stage, h]
  | some entry =>
    obtain ⟨schema, x⟩ := entry
    obtain ⟨before, after, hstaging, hname, hbefore, hafter⟩ := exists_append_of_find? hs h
    refine Or.inl ⟨before, schema, x, after, hstaging, hname, hbefore, ?_⟩
    rw [Declaration.stage, h]
    refine bind_congr_ok fun merged hmerge => ?_
    obtain rfl := eq_of_merge hmerge
    refine bind_congr_ok fun y _ => ?_
    have hkeep : ∀ entries : Staging, (∀ entry ∈ entries, entry.1.name ≠ d.name) →
        entries.map (fun entry => if entry.1.name == d.name then (merged, y) else entry) =
          entries := by
      intro entries hno
      conv_rhs => rw [← List.map_id entries]
      refine List.map_congr_left fun entry hentry => ?_
      simp [hno entry hentry]
    rw [hstaging, List.map_append, List.map_cons, hkeep before hbefore, hkeep after hafter]
    simp [hname]

/-- To stage a declaration repeats no name. -/
theorem distinct_of_stage (hs : staging.Distinct) (h : d.stage staging = .ok staging') :
    staging'.Distinct := by
  rcases stage_cases (d := d) hs with ⟨before, schema, x, after, rfl, -, -, heq⟩ | ⟨hno, heq⟩
  · rw [heq] at h
    obtain ⟨-, -, h⟩ := bind_eq_ok_iff.mp h
    obtain ⟨y, -, h⟩ := bind_eq_ok_iff.mp h
    rw [← Except.ok.inj h]
    simpa [Staging.Distinct] using hs
  · rw [heq] at h
    obtain ⟨schema, hschema, h⟩ := bind_eq_ok_iff.mp h
    obtain ⟨x, -, h⟩ := bind_eq_ok_iff.mp h
    rw [← Except.ok.inj h, Staging.Distinct, List.map_append, List.map_singleton,
      name_of_schema hschema]
    refine List.nodup_append.mpr ⟨hs, List.nodup_singleton _, fun name hname other hother => ?_⟩
    obtain ⟨entry, hentry, rfl⟩ := List.mem_map.mp hname
    exact List.mem_singleton.mp hother ▸ hno entry hentry

end Declaration

end RelationAlgebra
