import RelationAlgebra.Dataset.Install
import RelationAlgebra.Proofs.Agreement
import RelationAlgebra.Proofs.Renaming.Reading
import RelationAlgebra.Proofs.Renaming.Relation

/-!
# Stores of other atoms

A renamed store has the registries of the original one, and the renamed rows under every number. What
a relation says over it renames what the relation says over the original store
(`Store.read_rename`). Making relations, inserting tuples and installing datasets lead from renamed
stores to renamed stores, or fail in the same way.
-/

namespace RelationAlgebra

variable {p : Atom → Atom}

/-! ## Datasets -/

/-- The entry with other atoms. -/
def Entry.rename (p : Atom → Atom) : Entry → Entry
  | row atoms => row (atoms.map p)
  | bare atom => bare (p atom)

/-- The declaration with other atoms in its tuples. -/
def Declaration.rename (p : Atom → Atom) (d : Declaration) : Declaration :=
  { d with entries := d.entries.map (Entry.rename p) }

/-- The dataset with other atoms in its tuples. -/
def Dataset.rename (p : Atom → Atom) (d : Dataset) : Dataset where
  relations := d.relations.map (Declaration.rename p)

/-- The staged relations with other atoms in their rows. -/
def Staging.rename (p : Atom → Atom) (staging : Staging) : Staging :=
  Association.mapValues (Extension.rename p) staging

namespace InstallError

/-- The error with other atoms in the pair that it names. -/
def rename (p : Atom → Atom) : InstallError → InstallError
  | declaring relation cause => declaring relation (cause.rename p)
  | loading relation cause => loading relation (cause.rename p)
  | e => e

/-- The error without the text of the operand that it shows. -/
def kind : InstallError → InstallError
  | declaring relation cause => declaring relation cause.kind
  | loading relation cause => loading relation cause.kind
  | e => e

/-- Whether an error is another one with other atoms. -/
def Alike (p : Atom → Atom) (e e' : InstallError) : Prop := e'.kind = (e.rename p).kind

theorem alike_declaring {e e' : RelationError} (h : e.Alike p e') (relation : String) :
    Alike p (declaring relation e) (declaring relation e') :=
  congrArg (declaring relation) h

theorem alike_loading {e e' : RelationError} (h : e.Alike p e') (relation : String) :
    Alike p (loading relation e) (loading relation e') :=
  congrArg (loading relation) h

end InstallError

/-- Schemas are made without looking at an atom. -/
theorem Schema.parallel_plain (p : Atom → Atom) (name : String) (arity : Nat) :
    Parallel (RelationError.Alike p) id (plain name arity) (plain name arity) := by
  unfold plain
  split
  · exact .error rfl
  · exact .ok _

theorem PropertySet.parallel_validate (p : Atom → Atom) (ps : PropertySet) (relation : String) :
    Parallel (RelationError.Alike p) id (ps.validate relation) (ps.validate relation) := by
  unfold validate
  split
  · exact .error rfl
  · exact .ok ()

theorem Schema.parallel_binary (p : Atom → Atom) (name : String) (ps : PropertySet) :
    Parallel (RelationError.Alike p) id (binary name ps) (binary name ps) :=
  (ps.parallel_validate p name).bind fun _ => .ok _

namespace Declaration

/-- The tuples of a renamed declaration are the renamed tuples, bare atoms included. -/
theorem tuples_rename (p : Atom → Atom) (d : Declaration) :
    (d.rename p).entries.map Entry.tuple = (d.entries.map Entry.tuple).map (List.map p) := by
  rw [rename, List.map_map, List.map_map]
  refine List.map_congr_left fun e _ => ?_
  cases e <;> rfl

/-- Declarations are checked by name, arity and properties, so their atoms do not matter. -/
theorem schema_rename (p : Atom → Atom) (d : Declaration) :
    Parallel (InstallError.Alike p) id d.schema (d.rename p).schema := by
  have hsame : (d.rename p).schema = d.schema := rfl
  rw [hsame]
  unfold schema
  split
  · exact (Schema.parallel_plain p d.name d.arity).mapError fun _ _ h =>
      InstallError.alike_declaring h d.name
  · split
    · exact .error rfl
    · exact (Schema.parallel_binary p d.name d.properties).mapError fun _ _ h =>
        InstallError.alike_declaring h d.name

/-- A renamed declaration merges with what is staged just if the original one does. -/
theorem merge_rename (p : Atom → Atom) (d : Declaration) (staged : Schema) :
    Parallel (InstallError.Alike p) id (d.merge staged) ((d.rename p).merge staged) := by
  have hsame : (d.rename p).merge staged = d.merge staged := rfl
  rw [hsame]
  unfold merge
  split
  · exact .error rfl
  · split
    · exact .error rfl
    · exact .ok staged

/-- A renamed declaration loads its tuples behind renamed ones as before, or fails alike. -/
theorem load_rename (hp : Function.Injective p) (d : Declaration) (schema : Schema)
    (x : Extension) :
    Parallel (InstallError.Alike p) (Extension.rename p) (d.load schema x)
      ((d.rename p).load schema (x.rename p)) := by
  unfold load
  rw [tuples_rename]
  exact (schema.insertAll_rename hp x _).mapError fun _ _ h => InstallError.alike_loading h d.name

/-- One declaration of a renamed dataset stages the renamed rows. -/
theorem stage_rename (hp : Function.Injective p) (staging : Staging) (d : Declaration) :
    Parallel (InstallError.Alike p) (Staging.rename p) (d.stage staging)
      ((d.rename p).stage (staging.rename p)) := by
  have hfind : (staging.rename p).find? (fun entry => entry.1.name == d.name) =
      (staging.find? fun entry => entry.1.name == d.name).map
        fun entry => (entry.1, entry.2.rename p) := List.find?_map
  have hname : (d.rename p).name = d.name := rfl
  unfold stage
  rw [hname, hfind]
  cases staging.find? fun entry => entry.1.name == d.name with
  | some entry =>
    refine (d.merge_rename p entry.1).bind fun schema => ?_
    refine (d.load_rename hp schema entry.2).bind fun x => .of_eq ?_
    rw [Staging.rename, Staging.rename, Association.mapValues, Association.mapValues, List.map_map,
      List.map_map]
    refine List.map_congr_left fun entry _ => ?_
    simp only [Function.comp]
    split <;> rfl
  | none =>
    refine (d.schema_rename p).bind fun schema => ?_
    have hload := d.load_rename hp schema (.empty schema.arity)
    rw [Extension.rename_empty] at hload
    refine hload.bind fun x => .of_eq ?_
    simp [Staging.rename, Association.mapValues]

end Declaration

/-- Staging goes from declaration to declaration, so a renamed dataset stages the renamed rows. -/
theorem Dataset.staging_rename (hp : Function.Injective p) (d : Dataset) :
    Parallel (InstallError.Alike p) (Staging.rename p) d.staging (d.rename p).staging :=
  .foldlM (fun staging d _ => d.stage_rename hp staging) []

namespace Store

variable {s : Store} {b : Base}

/-- The store with other atoms in its rows. -/
def rename (p : Atom → Atom) (s : Store) : Store :=
  { s with extensions := Association.mapValues (Extension.rename p) s.extensions }

@[simp]
theorem ofArity_rename (p : Atom → Atom) (s : Store) (registry : String) (arity : Nat) :
    (s.rename p).ofArity registry arity = s.ofArity registry arity := rfl

/-- The rows under a number are renamed, and those under no number stay absent. -/
theorem extension_rename (p : Atom → Atom) (s : Store) (b : Base) :
    (s.rename p).extension b = (s.extension b).rename p := by
  rw [extension, extension, rename, Association.lookup_mapValues]
  cases s.extensions.lookup b.id with
  | none => rfl
  | some x => rfl

/-- What a complement is taken in is renamed with the rows that it is made of. -/
theorem ambient_rename (hp : Function.Injective p) (s : Store) (registry : String)
    (arity id : Nat) :
    (s.rename p).ambient registry arity id = (s.ambient registry arity id).rename p := by
  rw [ambient, ambient, ofArity_rename, ← Extension.rename_empty p]
  refine List.foldl_hom (Extension.rename p) fun x b => ?_
  rw [extension_rename, Extension.rows_rename, x.pushAll_rename hp]

/-! ## Evaluation -/

theorem forall₂_readBound_rename {views : List View}
    (h : ∀ v ∈ views, (s.read v.relation).Renames p
      ((s.rename p).read (v.relation.rename p))) :
    List.Forall₂ (Reading.RenamesBound p) (views.map s.readBound)
      ((views.map (View.rename p)).map (s.rename p).readBound) := by
  rw [List.map_map, List.forall₂_map_left_iff, List.forall₂_map_right_iff, List.forall₂_same]
  intro v hv
  rw [Function.comp, readBound_eq, readBound_eq]
  exact ⟨rfl, h v hv⟩

/-- Over other atoms, every relation says of these what it said of the original ones. -/
theorem read_rename (hp : Function.Injective p) (s : Store) (r : Relation) :
    (s.read r).Renames p ((s.rename p).read (r.rename p)) := by
  induction r using Relation.induction with
  | base b =>
    rw [Relation.rename, read, read, extension_rename]
    exact Reading.renames_stored hp b.properties (s.extension b)
  | union id views ih =>
    rw [Relation.rename, Relation.renameAll_eq_map, read_union, read_union,
      Relation.correspondence_rename]
    exact Reading.renames_union hp (forall₂_readBound_rename ih)
  | intersection id views ih =>
    rw [Relation.rename, Relation.renameAll_eq_map, read_intersection, read_intersection,
      Relation.correspondence_rename]
    exact Reading.renames_join hp (forall₂_readBound_rename ih)
  | complement id v registry ih =>
    rw [Relation.rename, Relation.renameOperand_eq, read_complement, read_complement,
      Relation.columns_rename, View.rename, Relation.arity_rename, Relation.id_rename,
      ambient_rename hp, readBound_eq, readBound_eq]
    exact Reading.renames_complement hp ⟨rfl, ih⟩ _
  | composition id first second ih₁ ih₂ =>
    have hviews : Relation.compositionViews (first.rename p) (second.rename p) =
        (Relation.compositionViews first second).map (View.rename p) := rfl
    rw [Relation.rename, read_composition, read_composition, hviews]
    refine Reading.renames_join hp (forall₂_readBound_rename ?_)
    simp only [Relation.compositionViews, List.forall_mem_cons]
    exact ⟨ih₁, ih₂, by simp⟩
  | converse id relation ih =>
    have hviews : Relation.converseViews (relation.rename p) =
        (Relation.converseViews relation).map (View.rename p) := rfl
    rw [Relation.rename, read_converse, read_converse, hviews]
    refine Reading.renames_join hp (forall₂_readBound_rename ?_)
    simp only [Relation.converseViews, List.forall_mem_cons]
    exact ⟨ih, by simp⟩

/-- Over other atoms a relation enumerates the renamed rows, in the same order. -/
theorem rows_rename (hp : Function.Injective p) (s : Store) (r : Relation) :
    (s.rename p).rows (r.rename p) = (s.rows r).rename p :=
  (read_rename hp s r).extension

/-- Over other atoms a relation accepts a renamed tuple just if it accepted the original one. -/
theorem accepts_rename (hp : Function.Injective p) (s : Store) (r : Relation) (t : Tuple) :
    (s.rename p).accepts (r.rename p) (t.map p) = s.accepts r t :=
  (read_rename hp s r).accepts t

/-- What comes of a call, with other atoms. -/
def Call.rename (p : Atom → Atom) : Call → Call
  | answer accepted => answer accepted
  | view v => view (v.rename p)

/-- A call with all slots literal asks for the renamed tuple, and any other call leaves the same
slots open. -/
theorem call_rename (hp : Function.Injective p) (s : Store) (r : Relation) (slots : Slots) :
    Parallel (RelationError.Alike p) (Call.rename p) (s.call r slots)
      ((s.rename p).call (r.rename p) (slots.rename p)) := by
  refine (r.bind_rename p slots).bind fun v => .of_eq ?_
  rw [View.rename, Slots.literals?_rename]
  cases v.slots.literals? with
  | none => rfl
  | some t =>
    simp only [Option.map_some, accepts_rename hp]
    rfl

/-! ## Operations -/

theorem create_rename (p : Atom → Atom) (s : Store) (schema : Schema) (x : Extension) :
    (s.rename p).create schema (x.rename p) =
      ((s.create schema x).1, (s.create schema x).2.rename p) := by
  simp only [create, rename, Association.set_mapValues]

theorem register_rename (p : Atom → Atom) (s : Store) (name : String) (b : Base) :
    (s.rename p).register name b = (s.register name b).rename p := rfl

theorem declare_rename (p : Atom → Atom) (s : Store) (registry : Option String)
    (schema : Schema) :
    (s.rename p).declare registry schema =
      ((s.declare registry schema).1, (s.declare registry schema).2.rename p) := by
  have hcreate := s.create_rename p schema (.empty schema.arity)
  rw [Extension.rename_empty] at hcreate
  unfold declare
  rw [hcreate]
  cases registry <;> rfl

theorem derive_rename (p : Atom → Atom) (s : Store) (combinator : Combinator)
    (views : List View) (registry : String) :
    Parallel (RelationError.Alike p) (Prod.map (Relation.rename p) (rename p))
      (s.derive combinator views registry)
      ((s.rename p).derive combinator (views.map (View.rename p)) registry) :=
  (Relation.derive_rename p s.next combinator views registry).bind fun _ => .ok _

/-- A batch is admitted to the renamed store or refused by it as by the original one. -/
theorem addAll_rename (hp : Function.Injective p) (s : Store) (r : Relation)
    (tuples : List Tuple) :
    Parallel (RelationError.Alike p) (rename p) (s.addAll r tuples)
      ((s.rename p).addAll (r.rename p) (tuples.map (List.map p))) := by
  have hname := r.name_rename p
  cases r with
  | base b =>
    have hinsert := b.insertAll_rename hp (s.extension b) tuples
    rw [← extension_rename] at hinsert
    rw [Relation.rename]
    refine hinsert.bind fun x => .of_eq ?_
    simp only [rename, Association.set_mapValues]
  | union | intersection | complement | composition | converse =>
    rw [Relation.rename] at hname ⊢
    exact .error (congrArg RelationError.readOnly hname)

theorem canAdd_rename (hp : Function.Injective p) (s : Store) (b : Base) (x y : Atom) :
    Parallel (RelationError.Alike p) id (s.canAdd b x y)
      ((s.rename p).canAdd b (p x) (p y)) := by
  rw [canAdd, canAdd, extension_rename]
  exact b.properties.checkInsert_rename hp b.name x y (s.extension b)

/-- What is committed to a renamed store gets the same numbers. -/
theorem commit_rename (p : Atom → Atom) (s : Store) (registry : String) (staging : Staging) :
    (s.rename p).commit registry (staging.rename p) =
      ((s.commit registry staging).1, (s.commit registry staging).2.rename p) := by
  induction staging generalizing s with
  | nil => rfl
  | cons entry staging ih =>
    have hcreate := s.create_rename p entry.1 entry.2
    have hcons : Staging.rename p (entry :: staging) =
        (entry.1, entry.2.rename p) :: Staging.rename p staging := rfl
    rw [hcons, commit, hcreate]
    simp only [register_rename, ih]
    rfl

/-- A renamed dataset is installed just if the original one is, under the same numbers. -/
theorem install_rename (hp : Function.Injective p) (s : Store) (registry : String)
    (d : Dataset) :
    Parallel (InstallError.Alike p) (Prod.map id (rename p)) (s.install registry d)
      ((s.rename p).install registry (d.rename p)) :=
  (d.staging_rename hp).bind fun staging => .of_eq (s.commit_rename p registry staging).symm

end Store

end RelationAlgebra
