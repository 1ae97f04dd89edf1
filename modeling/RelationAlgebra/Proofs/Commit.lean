import Mathlib.Data.List.Nodup
import RelationAlgebra.Proofs.Staging

/-!
# What a staging comes to in a store

Staged relations get the next numbers in turn, and have their schemas and rows when all are made
(`Store.map_entry_stage`). A commit registers them besides, behind the relations that a registry
lists already (`Store.registry_commit`).
-/

namespace RelationAlgebra.Store

variable {s s' : Store} {staging : Staging} {b c : Base} {registry : String}

/-- The rows of a relation are looked up by its number, whatever the registries are. -/
theorem extension_congr (h : s'.extensions = s.extensions) (b : Base) :
    s'.extension b = s.extension b := by
  rw [extension, extension, h]

/-- Refilling the rows under one number changes those of no other number. -/
theorem extension_refill (s : Store) (id : Nat) (x : Extension) (b : Base) :
    (s.refill id x).extension b = if b.id = id then x else s.extension b := by
  by_cases h : b.id = id <;> simp [extension, refill, Association.lookup_set, h]

theorem refill_refill (s : Store) (id : Nat) (x y : Extension) :
    (s.refill id x).refill id y = s.refill id y := by
  simp only [refill, Association.set_set]

theorem Holds.refill_extension (hb : s.Holds b) : s.refill b.id (s.extension b) = s := by
  obtain ⟨x, hx, -⟩ := hb.exists_lookup
  have hextension : s.extension b = x := by
    rw [extension, hx, Option.getD_some]
  rw [refill, hextension, Association.set_of_lookup hx]

/-! ## Made relations -/

/-- Staged relations get the next numbers in order. -/
theorem map_id_stage (s : Store) (staging : Staging) :
    (s.stage staging).1.map Base.id = List.range' s.next staging.length := by
  induction staging generalizing s with
  | nil => rfl
  | cons entry staging ih =>
    have hnext : (s.create entry.1 entry.2).2.next = s.next + 1 := rfl
    rw [stage_cons, List.map_cons, ih, hnext, List.length_cons, List.range'_succ]
    rfl

/-- Every staged relation has its schema and its rows in the store. -/
theorem map_entry_stage (s : Store) (staging : Staging) :
    (s.stage staging).1.map (fun b => (b.toSchema, (s.stage staging).2.extension b)) =
      staging := by
  induction staging generalizing s with
  | nil => rfl
  | cons entry staging ih =>
    -- the relations made after the first leave its rows as they are
    have hid : (s.create entry.1 entry.2).1.id < (s.create entry.1 entry.2).2.next :=
      Nat.lt_succ_self _
    rw [stage_cons, List.map_cons, ih, extension_stage hid, extension_create]
    rfl

theorem next_stage (s : Store) (staging : Staging) :
    (s.stage staging).2.next = s.next + staging.length := by
  induction staging generalizing s with
  | nil => rfl
  | cons entry staging ih =>
    have hnext : (s.create entry.1 entry.2).2.next = s.next + 1 := rfl
    rw [stage_cons, ih, hnext, List.length_cons, Nat.add_right_comm, Nat.add_assoc]

/-- Every number that is given to staged relations stands for one of them. -/
theorem exists_mem_stage {id : Nat} (h : s.next ≤ id) (h' : id < (s.stage staging).2.next) :
    ∃ b ∈ (s.stage staging).1, b.id = id := by
  rw [next_stage] at h'
  have hmem : id ∈ (s.stage staging).1.map Base.id := by
    rw [map_id_stage, List.mem_range'_1]
    exact ⟨h, h'⟩
  exact List.mem_map.mp hmem

theorem mem_of_mem_stage (h : b ∈ (s.stage staging).1) :
    (b.toSchema, (s.stage staging).2.extension b) ∈ staging := by
  have hmem := List.mem_map_of_mem (f := fun b => (b.toSchema, (s.stage staging).2.extension b)) h
  rwa [map_entry_stage] at hmem

/-- Staged relations are new. -/
theorem next_le_of_mem_stage (h : b ∈ (s.stage staging).1) : s.next ≤ b.id := by
  have hmem : b.id ∈ (s.stage staging).1.map Base.id := List.mem_map_of_mem h
  rw [map_id_stage, List.mem_range'_1] at hmem
  exact hmem.1

/-- No two staged relations have the same number. -/
theorem nodup_map_id_stage (s : Store) (staging : Staging) :
    ((s.stage staging).1.map Base.id).Nodup := by
  rw [map_id_stage]
  exact List.nodup_range'

theorem eq_of_mem_stage (hb : b ∈ (s.stage staging).1) (hc : c ∈ (s.stage staging).1)
    (h : b.id = c.id) : b = c :=
  List.inj_on_of_nodup_map (nodup_map_id_stage s staging) hb hc h

/-! ## Registered relations -/

theorem extensions_foldl_register (bs : List Base) (s : Store) :
    (bs.foldl (fun s b => s.register registry b) s).extensions = s.extensions := by
  induction bs generalizing s with
  | nil => rfl
  | cons b bs ih => rw [List.foldl_cons, ih]; rfl

theorem next_foldl_register (bs : List Base) (s : Store) :
    (bs.foldl (fun s b => s.register registry b) s).next = s.next := by
  induction bs generalizing s with
  | nil => rfl
  | cons b bs ih => rw [List.foldl_cons, ih]; rfl

/-- Registering relations in turn puts them behind those that are registered, in their order, and
leaves the other registries alone. -/
theorem registry_foldl_register (bs : List Base) (s : Store) (name : String) :
    (bs.foldl (fun s b => s.register registry b) s).registry name =
      if name = registry then s.registry registry ++ bs else s.registry name := by
  induction bs generalizing s with
  | nil => by_cases h : name = registry <;> simp [h]
  | cons b bs ih =>
    rw [List.foldl_cons, ih, registry_register, registry_register]
    by_cases h : name = registry <;> simp [h]

theorem commit_fst (s : Store) (registry : String) (staging : Staging) :
    (s.commit registry staging).1 = (s.stage staging).1 := by
  rw [commit_eq]

theorem next_commit (s : Store) (registry : String) (staging : Staging) :
    (s.commit registry staging).2.next = (s.stage staging).2.next := by
  rw [commit_eq]
  exact next_foldl_register _ _

/-- Registering does not touch rows, so these are as they were staged. -/
theorem extension_commit (s : Store) (registry : String) (staging : Staging) (b : Base) :
    (s.commit registry staging).2.extension b = (s.stage staging).2.extension b := by
  rw [commit_eq]
  exact extension_congr (extensions_foldl_register _ _) b

/-- A commit puts the staged relations behind those of its registry, in their order. -/
theorem registry_commit (s : Store) (registry : String) (staging : Staging) (name : String) :
    (s.commit registry staging).2.registry name =
      if name = registry then s.registry registry ++ (s.commit registry staging).1
      else s.registry name := by
  have hregistry : ∀ n, (s.stage staging).2.registry n = s.registry n := fun n => by
    rw [Store.registry, Store.registry, registries_stage]
  rw [commit_eq, registry_foldl_register, hregistry, hregistry]

end RelationAlgebra.Store
