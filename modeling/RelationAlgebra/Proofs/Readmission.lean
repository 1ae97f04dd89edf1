import RelationAlgebra.Proofs.Declared
import RelationAlgebra.Proofs.Growth
import RelationAlgebra.Proofs.Insertion

/-!
# Adding a tuple again

A tuple that is stored already is admitted once more and changes nothing, but for one case: the
guard of an asymmetric relation looks for the pair in the other order before anyone looks for the
pair itself, so it takes a stored pair of an atom with itself for its own opposite and refuses it
(`Session.readmits_iff`).
-/

namespace RelationAlgebra

variable {schema : Schema} {x y : Extension} {t : Tuple} {a : Atom}

/-- The guards let a stored tuple pass, unless they are asymmetric and it is a pair of an atom with
itself. -/
theorem Schema.checkGuards_stored_iff (hx : schema.properties.Guards x) (ht : t ∈ x.rows) :
    schema.checkGuards x t = .ok () ↔
      ¬ (schema.properties.asymmetric = true ∧ ∃ a, t = [a, a]) := by
  rw [Schema.checkGuards_eq_ok_iff]
  constructor
  · rintro ⟨-, hapart⟩ ⟨hasymmetric, a, rfl⟩
    exact hapart [a, a] ht ⟨hasymmetric, a, a, rfl, rfl⟩
  · intro hno
    refine ⟨fun hirreflexive a heq => ?_, ?_⟩
    · subst heq
      exact hx.irreflexive hirreflexive a ht
    -- the opposite pair is stored beside it, so the two are one
    · rintro u hu ⟨hasymmetric, a, c, rfl, rfl⟩
      obtain rfl := hx.asymmetric hasymmetric a c ht hu
      exact hno ⟨hasymmetric, a, rfl⟩

/-- Inserting a stored tuple gives the same rows, where the guards let it pass. -/
theorem Schema.insertAll_stored_iff (hx : schema.properties.Guards x) (hlen : t.length = x.arity)
    (ht : t ∈ x.rows) :
    schema.insertAll x [t] = .ok y ↔
      ¬ (schema.properties.asymmetric = true ∧ ∃ a, t = [a, a]) ∧ y = x := by
  rw [Schema.insertAll_singleton, Schema.insert_eq_ok_iff, Schema.checkGuards_stored_iff hx ht,
    Extension.push_of_mem ht, and_iff_right hlen]

/-- A stored pair of an atom with itself breaks the guard of an asymmetric relation. -/
theorem Schema.insertAll_stored_self (hx : schema.properties.Guards x)
    (ht : [a, a] ∈ x.rows) (h : schema.properties.asymmetric = true) :
    schema.insertAll x [[a, a]] =
      .error (.propertyViolation schema.name .asymmetric [a, a]) := by
  have hirreflexive : schema.properties.irreflexive = false :=
    Bool.eq_false_iff.mpr fun hps => hx.irreflexive hps a ht
  have hbroken : schema.properties.brokenGuard? a a x = some .asymmetric := by
    simp [PropertySet.brokenGuard?, hirreflexive, h, Extension.contains_iff.mpr ht]
  have hguards : schema.checkGuards x [a, a] =
      .error (.propertyViolation schema.name .asymmetric [a, a]) := by
    rw [Schema.checkGuards, PropertySet.checkInsert, hbroken]
  rw [Schema.insertAll_singleton, Schema.insert, hguards]
  rfl

namespace Store

variable {s s' : Store} {b : Base}

/-- Where a stored tuple is admitted again, the store is the one that it was. -/
theorem Valid.add_stored_iff (hs : s.Valid) (hb : s.Holds b)
    (hx : b.properties.Guards (s.extension b)) (ht : t ∈ (s.extension b).rows) :
    s.add (.base b) t = .ok s' ↔
      ¬ (b.properties.asymmetric = true ∧ ∃ a, t = [a, a]) ∧ s' = s := by
  have hrefill := hb.refill_extension
  rw [add, addAll_base_eq_ok_iff]
  simp only [Schema.insertAll_stored_iff hx ((hs.valid_extension b).length t ht) ht]
  constructor
  · rintro ⟨_, ⟨hno, rfl⟩, rfl⟩
    exact ⟨hno, hrefill⟩
  · rintro ⟨hno, rfl⟩
    exact ⟨_, ⟨hno, rfl⟩, hrefill.symm⟩

end Store

namespace Session

variable {s : Session} {b : Base}

/-- After any requests, adding a tuple that is stored already succeeds and leaves the whole store as
it is, except for a pair of an atom with itself in an asymmetric relation: that is refused, although
it is stored. -/
theorem readmits_iff (hs : s.Reached) (hb : s.Knows b)
    (ht : t ∈ (s.store.extension b).rows) :
    (s.store.add (.base b) t = .ok s.store ↔
      ¬ (b.properties.asymmetric = true ∧ ∃ a, t = [a, a])) ∧
    ∀ a, b.properties.asymmetric = true → t = [a, a] →
      s.store.add (.base b) t =
        .error (.propertyViolation b.name .asymmetric [a, a]) := by
  have hguards := hs.lawful.guards hb
  have hholds := hs.valid.holds_of_knows hb
  refine ⟨?_, fun a hasymmetric heq => ?_⟩
  · rw [hs.valid.store.add_stored_iff hholds hguards ht, and_iff_left rfl]
  · subst heq
    rw [Store.add, Store.addAll, Schema.insertAll_stored_self hguards ht hasymmetric]
    rfl

/-- An example with an asymmetric relation that holds a pair of an atom with itself. -/
def myth : Session :=
  (empty.run
    [.act (.declareBinary "admires" { asymmetric := true, reflexive := true } (some "main"))
      (some "admires"),
     .act (.addAll "admires" [[.text "narcissus", .text "narcissus"],
      [.text "echo", .text "narcissus"]]) none]).2

def mythAdmires : Base :=
  { name := "admires", arity := 2, properties := { asymmetric := true, reflexive := true }, id := 0 }

theorem reached_myth : myth.Reached := reached_run .empty _

theorem knows_mythAdmires : myth.Knows mythAdmires := by
  have hregistry : myth.store.registry "main" = [mythAdmires] := rfl
  have hlisted : mythAdmires ∈ myth.store.registry "main" := by simp [hregistry]
  exact .registered hlisted

theorem readmits_iff_mythAdmires :
    myth.store.add (.base mythAdmires) [.text "echo", .text "narcissus"] = .ok myth.store ∧
      myth.store.add (.base mythAdmires) [.text "narcissus", .text "narcissus"] =
        .error (.propertyViolation "admires" .asymmetric
          [.text "narcissus", .text "narcissus"]) := by
  have hecho : [.text "echo", .text "narcissus"] ∈ (myth.store.extension mythAdmires).rows := by
    decide
  have hself : [.text "narcissus", .text "narcissus"] ∈
      (myth.store.extension mythAdmires).rows := by decide
  refine ⟨(readmits_iff reached_myth knows_mythAdmires hecho).1.mpr ?_,
    (readmits_iff reached_myth knows_mythAdmires hself).2 (.text "narcissus") rfl rfl⟩
  rintro ⟨-, a, heq⟩
  obtain ⟨hecho, hnarcissus⟩ : Atom.text "echo" = a ∧ Atom.text "narcissus" = a := by
    simpa using heq
  exact absurd (hecho.trans hnarcissus.symm) (by decide)

/-- A stored tuple cannot always be added again. -/
theorem not_forall_readmits :
    ¬ ∀ (s : Session) (b : Base) (t : Tuple), s.Reached → s.Knows b →
      t ∈ (s.store.extension b).rows →
      ∃ store, s.store.add (.base b) t = .ok store ∧
        store.extension b = s.store.extension b := by
  intro h
  obtain ⟨store, hstore, -⟩ := h myth mythAdmires [.text "narcissus", .text "narcissus"]
    reached_myth knows_mythAdmires (by decide)
  have hrefused : myth.store.add (.base mythAdmires) [.text "narcissus", .text "narcissus"] =
      .error (.propertyViolation "admires" .asymmetric
        [.text "narcissus", .text "narcissus"]) := rfl
  rw [hrefused] at hstore
  cases hstore

end Session

end RelationAlgebra
