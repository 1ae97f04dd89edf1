import RelationAlgebra.Dataset.Install
import RelationAlgebra.Proofs.Except
import RelationAlgebra.Proofs.Extension

/-!
# Stores stay valid

What every store keeps that is made by the operations: the rows of a stored relation are valid and
have the length that the relation was declared with, numbers are given in order, and registries hold
stored relations only (`Store.Valid`). A store grows (`Store.Grows`) if no stored relation is lost and
no number of a derived relation is given to a stored one.
-/

namespace RelationAlgebra

/-! ## Insertion -/

/-- A tuple is inserted if the guards let it in and its length is the arity. -/
theorem Schema.insert_eq_ok_iff {schema : Schema} {x y : Extension} {t : Tuple} :
    schema.insert x t = .ok y ↔
      schema.checkGuards x t = .ok () ∧ t.length = x.arity ∧ y = x.push t := by
  constructor
  · intro h
    obtain ⟨⟨⟩, hguards, h⟩ := bind_eq_ok_iff.mp h
    exact ⟨hguards, Extension.insert_eq_ok_iff.mp h⟩
  · rintro ⟨hguards, h⟩
    exact bind_eq_ok_iff.mpr ⟨(), hguards, Extension.insert_eq_ok_iff.mpr h⟩

theorem Schema.valid_of_insertAll {schema : Schema} {x y : Extension} {tuples : List Tuple}
    (hx : x.Valid) (h : schema.insertAll x tuples = .ok y) : y.Valid ∧ y.arity = x.arity := by
  refine invariant_of_foldlM_eq_ok (P := fun y => y.Valid ∧ y.arity = x.arity) ?_ ⟨hx, rfl⟩ h
  rintro y t z ⟨hy, harity⟩ hz
  obtain ⟨-, hlen, rfl⟩ := Schema.insert_eq_ok_iff.mp hz
  exact ⟨hy.push hlen, by rw [Extension.arity_push, harity]⟩

namespace Store

variable {s s' : Store} {b : Base} {id : Nat} {x : Extension} {schema : Schema} {name : String}

/-- Whether a store has rows for a relation of the number and the arity of `b`. -/
def Holds (s : Store) (b : Base) : Prop :=
  (s.extensions.lookup b.id).map Extension.arity = some b.arity

/-- Whether a number was given, and not to a stored relation. -/
def Reserves (s : Store) (id : Nat) : Prop := id < s.next ∧ s.extensions.lookup id = none

/-- What every store keeps. -/
structure Valid (s : Store) : Prop where
  extension : ∀ {id x}, s.extensions.lookup id = some x → x.Valid
  next : ∀ {id x}, s.extensions.lookup id = some x → id < s.next
  registered : ∀ {name b}, b ∈ s.registry name → s.Holds b

/-- Whether all relations over `s` are relations over `s'` too. -/
structure Grows (s s' : Store) : Prop where
  holds : ∀ {b}, s.Holds b → s'.Holds b
  reserves : ∀ {id}, s.Reserves id → s'.Reserves id

theorem Grows.refl (s : Store) : s.Grows s := ⟨fun h => h, fun h => h⟩

theorem Grows.trans {s₁ s₂ s₃ : Store} (h₁ : s₁.Grows s₂) (h₂ : s₂.Grows s₃) : s₁.Grows s₃ :=
  ⟨fun h => h₂.holds (h₁.holds h), fun h => h₂.reserves (h₁.reserves h)⟩

theorem Holds.exists_lookup (h : s.Holds b) :
    ∃ x, s.extensions.lookup b.id = some x ∧ x.arity = b.arity := by
  simpa [Holds] using h

/-- The extension of a relation that is held has the arity of its schema. -/
theorem Holds.arity_extension (h : s.Holds b) : (s.extension b).arity = b.arity := by
  obtain ⟨x, hx, harity⟩ := h.exists_lookup
  simp [extension, hx, harity]

/-- Rows are found by the number of a relation alone. -/
theorem Holds.extension_eq {c : Base} (hb : s.Holds b) (h : b.id = c.id) :
    s.extension b = s.extension c := by
  obtain ⟨x, hx, -⟩ := hb.exists_lookup
  rw [extension, extension, ← h, hx]
  rfl

/-- Every extension in a valid store is valid, that of an unknown number too. -/
theorem Valid.valid_extension (hs : s.Valid) (b : Base) : (s.extension b).Valid := by
  unfold Store.extension
  cases hx : s.extensions.lookup b.id with
  | none => exact Extension.valid_empty _
  | some x => exact hs.extension hx

theorem Valid.length_of_mem_extension (hs : s.Valid) (h : s.Holds b) {t : Tuple}
    (ht : t ∈ (s.extension b).rows) : t.length = b.arity := by
  rw [(hs.valid_extension b).length t ht, h.arity_extension]

/-- The rows that a complement is taken in are those of the other relations of the arity. -/
theorem mem_rows_ambient {registry : String} {arity : Nat} {t : Tuple} :
    t ∈ (s.ambient registry arity id).rows ↔
      ∃ b ∈ s.registry registry, b.id ≠ id ∧ b.arity = arity ∧ t ∈ (s.extension b).rows := by
  rw [ambient, Extension.mem_rows_foldl (P := fun b => t ∈ (s.extension b).rows)
    fun _ _ _ => Extension.mem_rows_pushAll]
  simp [Extension.empty, ofArity, and_assoc]

/-- The rows that a complement is taken in have the arity of its operand. -/
theorem Valid.length_of_mem_ambient (hs : s.Valid) {registry : String} {arity : Nat} {t : Tuple}
    (ht : t ∈ (s.ambient registry arity id).rows) : t.length = arity := by
  obtain ⟨b, hb, -, harity, ht⟩ := mem_rows_ambient.mp ht
  rw [hs.length_of_mem_extension (hs.registered hb) ht, harity]

theorem valid_empty : Store.Valid {} := by
  refine ⟨fun h => ?_, fun h => ?_, fun h => ?_⟩
  · cases h
  · cases h
  · cases h

/-! ## Operations -/

/-- The numbers that a store has not given yet stand for nothing. -/
theorem Valid.lookup_next (hs : s.Valid) : s.extensions.lookup s.next = none := by
  cases h : s.extensions.lookup s.next with
  | none => rfl
  | some x => exact absurd (hs.next h) (Nat.lt_irrefl _)

/-- A new relation gets the next number, and the others stay. -/
theorem lookup_create :
    (s.create schema x).2.extensions.lookup id =
      if id = s.next then some x else s.extensions.lookup id := by
  simp only [create, Association.lookup_set, beq_iff_eq]

/-- To make a relation keeps the store valid, and what was built stays built. -/
theorem Valid.create (hs : s.Valid) (schema : Schema) (hx : x.Valid)
    (harity : x.arity = schema.arity) :
    (s.create schema x).2.Valid ∧ s.Grows (s.create schema x).2 ∧
      (s.create schema x).2.Holds (s.create schema x).1 := by
  have hgrows : s.Grows (s.create schema x).2 := by
    refine ⟨fun {b} hb => ?_, fun {id} hid => ⟨Nat.lt_succ_of_lt hid.1, ?_⟩⟩
    · obtain ⟨y, hy, harity⟩ := hb.exists_lookup
      have hne : b.id ≠ s.next := Nat.ne_of_lt (hs.next hy)
      rw [Holds, lookup_create, if_neg hne, hy, Option.map_some, harity]
    · rw [lookup_create, if_neg (Nat.ne_of_lt hid.1), hid.2]
  refine ⟨⟨fun {id y} h => ?_, fun {id y} h => ?_, fun hb => hgrows.holds (hs.registered hb)⟩,
    hgrows, ?_⟩
  · rw [lookup_create] at h
    split at h
    · exact Option.some.inj h ▸ hx
    · exact hs.extension h
  · rw [lookup_create] at h
    split at h
    next e => exact e ▸ Nat.lt_succ_self _
    next => exact Nat.lt_succ_of_lt (hs.next h)
  · have hid : (s.create schema x).1.id = s.next := rfl
    have hb : (s.create schema x).1.arity = schema.arity := rfl
    rw [Holds, lookup_create, hid, if_pos rfl, Option.map_some, harity, hb]

/-- A registry lists what is registered there last. -/
theorem registry_register {name' : String} :
    (s.register name b).registry name' =
      if name' = name then s.registry name ++ [b] else s.registry name' := by
  by_cases h : name' = name <;> simp [registry, register, Association.lookup_set, h]

/-- To register a relation that is held keeps the store valid. -/
theorem Valid.register (hs : s.Valid) (hb : s.Holds b) : (s.register name b).Valid := by
  refine ⟨hs.extension, hs.next, fun {name' c} hc => ?_⟩
  rw [registry_register] at hc
  split at hc
  · rcases List.mem_append.mp hc with hc | hc
    · exact hs.registered hc
    · exact List.mem_singleton.mp hc ▸ hb
  · exact hs.registered hc

theorem grows_register (s : Store) (name : String) (b : Base) : s.Grows (s.register name b) :=
  ⟨fun h => h, fun h => h⟩

theorem declare_fst (s : Store) (registry : Option String) (schema : Schema) :
    (s.declare registry schema).1 = (s.create schema (.empty schema.arity)).1 := by
  cases registry <;> rfl

theorem extensions_declare (s : Store) (registry : Option String) (schema : Schema) :
    (s.declare registry schema).2.extensions =
      (s.create schema (.empty schema.arity)).2.extensions := by
  cases registry <;> rfl

/-- To declare a relation keeps the store valid, and the store holds what is declared. -/
theorem Valid.declare (hs : s.Valid) (registry : Option String) (schema : Schema) :
    (s.declare registry schema).2.Valid ∧ s.Grows (s.declare registry schema).2 ∧
      (s.declare registry schema).2.Holds (s.declare registry schema).1 := by
  obtain ⟨hvalid, hgrows, hholds⟩ :=
    hs.create schema (Extension.valid_empty schema.arity) rfl
  cases registry with
  | none => exact ⟨hvalid, hgrows, hholds⟩
  | some name =>
    exact ⟨hvalid.register hholds, hgrows.trans (grows_register _ _ _),
      (grows_register _ _ _).holds hholds⟩

/-- Adding tuples changes the rows of one relation, to rows of the same length. -/
theorem Valid.addAll {r : Relation} {tuples : List Tuple} (hs : s.Valid)
    (hr : ∀ b, r = .base b → s.Holds b) (h : s.addAll r tuples = .ok s') :
    s'.Valid ∧ s.Grows s' := by
  cases r with
  | base b =>
    have hb : s.Holds b := hr b rfl
    simp only [Store.addAll, bind_eq_ok_iff] at h
    obtain ⟨x, hx, h⟩ := h
    obtain ⟨hvalid, harity⟩ := Schema.valid_of_insertAll (hs.valid_extension b) hx
    rw [← Except.ok.inj h]
    obtain ⟨y, hy, hyb⟩ := hb.exists_lookup
    have hxb : x.arity = b.arity := harity.trans hb.arity_extension
    have hlookup : ∀ id, (Association.set b.id x s.extensions).lookup id =
        if id = b.id then some x else s.extensions.lookup id := by
      simp [Association.lookup_set]
    have hgrows : s.Grows { s with extensions := Association.set b.id x s.extensions } := by
      refine ⟨fun {c} hc => ?_, fun {id} hid => ⟨hid.1, ?_⟩⟩
      · rw [Holds, hlookup]
        split
        next e =>
          have hcb : some y.arity = some c.arity := by simpa [Holds, e, hy] using hc
          rw [Option.map_some, hxb, ← hyb, hcb]
        next => exact hc
      · have hne : id ≠ b.id := by
          rintro rfl
          rw [hid.2] at hy
          cases hy
        rw [hlookup, if_neg hne, hid.2]
    refine ⟨⟨fun {id z} hz => ?_, fun {id z} hz => ?_, fun hc => hgrows.holds (hs.registered hc)⟩,
      hgrows⟩
    · rw [hlookup] at hz
      split at hz
      · exact Option.some.inj hz ▸ hvalid
      · exact hs.extension hz
    · rw [hlookup] at hz
      split at hz
      next e => exact e.symm ▸ hs.next hy
      next => exact hs.next hz
  | union | intersection | complement | composition | converse => cases h

end Store

/-! ## Installing datasets -/

/-- Whether staged rows are valid and have the arity of their schema. -/
def Staging.Valid (staging : Staging) : Prop :=
  ∀ entry ∈ staging, entry.2.Valid ∧ entry.2.arity = entry.1.arity

theorem Staging.valid_nil : Staging.Valid [] := by simp [Staging.Valid]

theorem Staging.Valid.append {staging : Staging} {schema : Schema} {x : Extension}
    (hs : staging.Valid) (hx : x.Valid ∧ x.arity = schema.arity) :
    Staging.Valid (staging ++ [(schema, x)]) := by
  intro entry hentry
  rcases List.mem_append.mp hentry with hentry | hentry
  · exact hs entry hentry
  · exact List.mem_singleton.mp hentry ▸ hx

/-- The tuples of a declaration leave a valid extension of the same arity. -/
theorem Declaration.valid_of_load {d : Declaration} {schema : Schema} {x y : Extension}
    (hx : x.Valid ∧ x.arity = schema.arity) (h : d.load schema x = .ok y) :
    y.Valid ∧ y.arity = schema.arity := by
  obtain ⟨hy, harity⟩ := Schema.valid_of_insertAll hx.1 (mapError_eq_ok_iff.mp h)
  exact ⟨hy, harity.trans hx.2⟩

/-- A declaration that agrees with a staged schema is merged into it as it is. -/
theorem Declaration.eq_of_merge {d : Declaration} {staged schema : Schema}
    (h : d.merge staged = .ok schema) : schema = staged := by
  unfold Declaration.merge at h
  split at h
  · cases h
  · split at h
    · cases h
    · exact (Except.ok.inj h).symm

theorem Declaration.valid_of_stage {d : Declaration} {staging staging' : Staging}
    (hs : staging.Valid) (h : d.stage staging = .ok staging') : staging'.Valid := by
  unfold Declaration.stage at h
  split at h
  next staged x hfind =>
    obtain ⟨schema, hmerge, h⟩ := bind_eq_ok_iff.mp h
    obtain ⟨y, hload, h⟩ := bind_eq_ok_iff.mp h
    rw [Declaration.eq_of_merge hmerge] at hload h
    have hy := Declaration.valid_of_load (hs _ (List.mem_of_find?_eq_some hfind)) hload
    rw [← Except.ok.inj h]
    intro entry hentry
    obtain ⟨e, he, rfl⟩ := List.mem_map.mp hentry
    split
    · exact hy
    · exact hs e he
  next =>
    obtain ⟨schema, -, h⟩ := bind_eq_ok_iff.mp h
    obtain ⟨y, hload, h⟩ := bind_eq_ok_iff.mp h
    rw [← Except.ok.inj h]
    exact hs.append (Declaration.valid_of_load ⟨Extension.valid_empty _, rfl⟩ hload)

theorem Dataset.valid_of_staging {d : Dataset} {staging : Staging} (h : d.staging = .ok staging) :
    staging.Valid :=
  invariant_of_foldlM_eq_ok (P := Staging.Valid)
    (fun _ _ _ hs h => Declaration.valid_of_stage hs h) Staging.valid_nil h

namespace Store

/-- To commit a valid staging keeps the store valid. -/
theorem Valid.commit {s : Store} {staging : Staging} (hs : s.Valid) (h : staging.Valid)
    (registry : String) :
    (s.commit registry staging).2.Valid ∧ s.Grows (s.commit registry staging).2 := by
  induction staging generalizing s with
  | nil => exact ⟨hs, .refl s⟩
  | cons entry staging ih =>
    obtain ⟨schema, x⟩ := entry
    rw [Staging.Valid, List.forall_mem_cons] at h
    obtain ⟨hvalid, hgrows, hholds⟩ := hs.create schema h.1.1 h.1.2
    obtain ⟨hvalid', hgrows'⟩ := ih (hvalid.register hholds) h.2
    exact ⟨hvalid', hgrows.trans ((grows_register _ _ _).trans hgrows')⟩

theorem install_eq_commit_iff {s : Store} {registry : String} {d : Dataset}
    {result : List Base × Store} :
    s.install registry d = .ok result ↔
      ∃ staging, d.staging = .ok staging ∧ s.commit registry staging = result := by
  rw [install, bind_eq_ok_iff]
  exact exists_congr fun staging => and_congr_right fun _ => ⟨Except.ok.inj, congrArg _⟩

/-- An installation that succeeds keeps the store valid. -/
theorem Valid.install {s s' : Store} {registry : String} {d : Dataset} {bs : List Base}
    (hs : s.Valid) (h : s.install registry d = .ok (bs, s')) : s'.Valid ∧ s.Grows s' := by
  obtain ⟨staging, hstaging, hcommit⟩ := install_eq_commit_iff.mp h
  have hs' : (s.commit registry staging).2 = s' := congrArg Prod.snd hcommit
  rw [← hs']
  exact hs.commit (Dataset.valid_of_staging hstaging) registry

end Store

end RelationAlgebra
