import RelationAlgebra.Dataset.Format
import RelationAlgebra.Proofs.Json

/-!
# Datasets are read back

Every dataset is read back from its text as it was (`Dataset.write_round_trip`), so a text that is
read may be replaced by the one that is written. Atoms and entries carry no mark of their kind: an
entry is told by being an array or not, an atom by its form of JSON. Properties are left out where
there are none and are then read as none.

The one thing that a text cannot hold is an arity of more than 64 bits.
-/

namespace RelationAlgebra

/-! ## Lists and records -/

/-- A list is decoded if each of its encoded elements is. -/
theorem mapM_map_eq_some {α β : Type} {f : α → β} {g : β → Option α} {xs : List α}
    (h : ∀ x ∈ xs, g (f x) = some x) : (xs.map f).mapM g = some xs := by
  induction xs with
  | nil => rfl
  | cons x xs ih =>
    rw [List.forall_mem_cons] at h
    simp [h.1, ih h.2]

theorem mapM_eq_some_iff {α β : Type} {g : β → Option α} {ys : List β} {xs : List α} :
    ys.mapM g = some xs ↔ List.Forall₂ (fun x y => g y = some x) xs ys := by
  induction ys generalizing xs with
  | nil => cases xs <;> simp
  | cons y ys ih =>
    simp only [List.mapM_cons, Option.bind_eq_bind, Option.bind_eq_some_iff, Option.pure_def,
      Option.some.injEq]
    constructor
    · rintro ⟨x, hx, xs, hxs, rfl⟩
      exact .cons hx (ih.mp hxs)
    · rintro (_ | ⟨hx, hxs⟩)
      exact ⟨_, hx, _, ih.mpr hxs, rfl⟩

theorem exists_of_mapM_eq_some {α β : Type} {g : β → Option α} {ys : List β} {xs : List α}
    (h : ys.mapM g = some xs) : ∀ x ∈ xs, ∃ y ∈ ys, g y = some x := by
  induction ys generalizing xs with
  | nil =>
    cases h
    simp
  | cons y ys ih =>
    simp only [List.mapM_cons, Option.bind_eq_bind, Option.bind_eq_some_iff] at h
    obtain ⟨x, hx, xs', hxs, h⟩ := h
    cases h
    rw [List.forall_mem_cons]
    refine ⟨⟨y, List.mem_cons_self, hx⟩, fun z hz => ?_⟩
    obtain ⟨w, hw, hgw⟩ := ih hxs z hz
    exact ⟨w, List.mem_cons_of_mem _ hw, hgw⟩

namespace Json

/-- An object whose keys are distinct fields gives just its members. -/
theorem record?_record {fields : List String} {members : List (String × Json)}
    (hknown : ∀ m ∈ members, m.1 ∈ fields) (hdistinct : (members.map (·.1)).Nodup) (closed : Bool) :
    (record members).record? fields closed = some members := by
  have hall : members.filter (fun m => fields.contains m.1) = members := by
    simpa using hknown
  have hkeys : (members.map fun m => (some m.1, m.2)).mapM
      (fun m => m.1.map fun key => (key, m.2)) = some members :=
    mapM_map_eq_some fun _ _ => rfl
  simp only [record, record?, hkeys, hall, hdistinct, Option.bind_eq_bind, Option.bind_some]
  simp

variable {α : Type} {given : List (String × Json)} {name key : String} {v : Json}
  {decode : Json → Option α} {default : Option α}

@[simp]
theorem field?_nil : field? [] name decode default = default := rfl

@[simp]
theorem field?_cons_self : field? ((name, v) :: given) name decode default = decode v := by
  simp [field?]

@[simp]
theorem field?_cons_of_ne (h : name ≠ key) :
    field? ((key, v) :: given) name decode default = field? given name decode default := by
  have hne : (name == key) = false := by simpa using h
  simp [field?, List.lookup_cons, hne]

/-- A field that must be given is decoded from what is given. -/
theorem exists_of_field?_none {x : α} (h : field? given name decode none = some x) :
    ∃ v, decode v = some x := by
  unfold field? at h
  split at h
  next v _ => exact ⟨v, h⟩
  next => contradiction

theorem exists_of_list? {xs : List α} (h : list? decode v = some xs) :
    ∀ x ∈ xs, ∃ w, decode w = some x := by
  unfold list? at h
  split at h
  next =>
    intro x hx
    obtain ⟨w, -, hw⟩ := exists_of_mapM_eq_some h x hx
    exact ⟨w, hw⟩
  next => contradiction

theorem natural?_int {bound n : Nat} (h : n < bound) : natural? bound (.int n) = some n := if_pos h

theorem lt_of_natural? {bound n : Nat} (h : natural? bound v = some n) : n < bound := by
  unfold natural? at h
  split at h
  next =>
    split at h
    next hlt => exact Option.some.inj h ▸ hlt
    next => contradiction
  next => contradiction

end Json

/-! ## Atoms, tuples and entries -/

/-- Every 64-bit integer is read back from its value. -/
theorem Decimal.int64?_toInt (i : Int64) : int64? i.toInt = some i := by
  have hlow := i.le_toInt
  have hhigh := i.toInt_lt
  rw [int64?, if_pos (by omega), Int64.ofInt_toInt]

/-- Every atom is read back from its JSON. -/
theorem Atom.ofJson?_toJson (a : Atom) : ofJson? a.toJson = some a := by
  cases a with
  | bool b => rfl
  | int i => simp [toJson, ofJson?, Decimal.int64?_toInt]
  | text s => rfl

theorem Tuple.ofJson?_toJson (t : Tuple) : ofJson? t.toJson = some t :=
  mapM_map_eq_some fun a _ => a.ofJson?_toJson

/-- No atom is written as an array, so a bare atom is not taken for a row. -/
theorem Entry.ofJson?_toJson (e : Entry) : ofJson? e.toJson = some e := by
  cases e with
  | row atoms =>
    have hrow := Tuple.ofJson?_toJson atoms
    rw [Tuple.toJson] at hrow
    simp [toJson, Tuple.toJson, ofJson?, hrow]
  | bare a =>
    have hbare := a.ofJson?_toJson
    cases a <;> simp_all [toJson, Atom.toJson, Json.text, ofJson?]

/-! ## Sets of properties -/

/-- The members of the object that a set of properties is written as. -/
def PropertySet.flags (ps : PropertySet) : List (String × Json) :=
  Property.all.map fun p => (p.name, .bool (ps.declares p))

/-- Each flag is found under the name of its property. -/
theorem PropertySet.field?_flags (ps : PropertySet) (p : Property) (default : Option Bool) :
    Json.field? ps.flags p.name Json.bool? default = some (ps.declares p) := by
  cases p <;> rfl

/-- All flags are written, so none is left to its default. -/
theorem PropertySet.ofJson?_toJson (ps : PropertySet) : ofJson? ps.toJson = some ps := by
  have hknown : ∀ m ∈ ps.flags, m.1 ∈ Property.all.map Property.name := by
    simp only [flags, List.forall_mem_map]
    exact fun p hp => List.mem_map_of_mem hp
  have hdistinct : (ps.flags.map (·.1)).Nodup := by
    rw [flags, List.map_map]
    exact (by decide : (Property.all.map Property.name).Nodup)
  have hgiven : ps.toJson.record? (Property.all.map Property.name) true = some ps.flags :=
    Json.record?_record hknown hdistinct true
  simp [ofJson?, hgiven, field?_flags, declares]

/-! ## Declarations and datasets -/

theorem Declaration.ofJson?_toJson (d : Declaration) (h : d.arity < arityBound) :
    ofJson? d.toJson = some d := by
  have harity : Json.natural? arityBound (.int d.arity) = some d.arity := Json.natural?_int h
  have hentries : Json.list? Entry.ofJson? (.array (d.entries.map Entry.toJson)) = some d.entries :=
    mapM_map_eq_some fun e _ => e.ofJson?_toJson
  cases hempty : d.properties.isEmpty with
  | true =>
    have hnone : d.properties = {} := of_decide_eq_true hempty
    have hgiven : d.toJson.record? ["name", "arity", "properties", "tuples"] false =
        some [("name", .text d.name), ("arity", .int d.arity),
          ("tuples", .array (d.entries.map Entry.toJson))] := by
      rw [toJson, hempty]
      exact Json.record?_record (by simp) (by simp) false
    simp [ofJson?, hgiven, Json.text, Json.text?, harity, hentries, ← hnone]
  | false =>
    have hgiven : d.toJson.record? ["name", "arity", "properties", "tuples"] false =
        some [("name", .text d.name), ("arity", .int d.arity),
          ("properties", d.properties.toJson),
          ("tuples", .array (d.entries.map Entry.toJson))] := by
      rw [toJson, hempty]
      exact Json.record?_record (by simp) (by simp) false
    simp [ofJson?, hgiven, Json.text, Json.text?, harity, hentries,
      d.properties.ofJson?_toJson]

/-- No declaration is decoded with an arity beyond the machine numbers. -/
theorem Declaration.arity_lt_of_ofJson? {v : Json} {d : Declaration} (h : ofJson? v = some d) :
    d.arity < arityBound := by
  simp only [ofJson?, Option.bind_eq_bind, Option.bind_eq_some_iff] at h
  obtain ⟨given, -, name, -, arity, harity, properties, -, entries, -, h⟩ := h
  cases h
  obtain ⟨v, hv⟩ := Json.exists_of_field?_none harity
  exact Json.lt_of_natural? hv

namespace Dataset

/-- Whether every arity has at most 64 bits. -/
def Representable (d : Dataset) : Prop := ∀ e ∈ d.relations, e.arity < Declaration.arityBound

/-- A representable dataset is read back, declaration by declaration. -/
theorem ofJson?_toJson {d : Dataset} (h : d.Representable) : ofJson? d.toJson = some d := by
  have hgiven : d.toJson.record? ["relations"] false =
      some [("relations", .array (d.relations.map Declaration.toJson))] :=
    Json.record?_record (by simp) (by simp) false
  have hrelations : Json.list? Declaration.ofJson?
      (.array (d.relations.map Declaration.toJson)) = some d.relations :=
    mapM_map_eq_some fun e he => e.ofJson?_toJson (h e he)
  simp [ofJson?, hgiven, hrelations]

/-- What is written of a representable dataset is read as the same dataset. -/
theorem parse?_write {d : Dataset} (h : d.Representable) : parse? d.write = some d := by
  rw [parse?, write, Json.parse?_write, Option.bind_some, ofJson?_toJson h]

/-- Only such a dataset is ever read. -/
theorem representable_of_ofJson? {v : Json} {d : Dataset} (h : ofJson? v = some d) :
    d.Representable := by
  simp only [ofJson?, Option.bind_eq_bind, Option.bind_eq_some_iff] at h
  obtain ⟨given, -, relations, hrelations, h⟩ := h
  cases h
  unfold Json.field? at hrelations
  split at hrelations
  next =>
    intro e he
    obtain ⟨w, hw⟩ := Json.exists_of_list? hrelations e he
    exact Declaration.arity_lt_of_ofJson? hw
  next =>
    cases hrelations
    intro e he
    contradiction

/-- Writing and reading a dataset gives it back; so the text that is written for what another text
says is a fixed point: it says the same and is written again as it is. -/
theorem write_round_trip :
    (∀ d : Dataset, d.Representable → parse? d.write = some d) ∧
      ∀ (text : String) (d : Dataset), parse? text = some d →
        parse? d.write = some d ∧ (parse? d.write).map write = some d.write := by
  refine ⟨fun d h => parse?_write h, fun text d h => ?_⟩
  obtain ⟨v, -, hv⟩ := Option.bind_eq_some_iff.mp h
  have hread := parse?_write (representable_of_ofJson? hv)
  exact ⟨hread, by rw [hread, Option.map_some]⟩

/-- Texts that need escapes, integers and an arity at their limits, and every form of an entry. -/
def awkward : Dataset where
  relations := [
    { name := "\"\\\n\x00\x1fé𝄞"
      arity := 18446744073709551615
      entries := [
        .row [],
        .row [.int (-9223372036854775808), .int 9223372036854775807, .bool false],
        .bare (.text "\t\"true\""),
        .row [.text "1"],
        .bare (.int 1)] },
    { name := ""
      arity := 0
      properties := { irreflexive := true, transitive := true } },
    { name := ""
      arity := 0 }]

/-- Records as arrays, with blanks and an escape that writing does not use. -/
def loose : String := "[ [[\"\\u0070\", 1]]\n]"

def tidy : Dataset where
  relations := [{ name := "p", arity := 1 }]

example : tidy.write =
    "\x7b\"relations\":[\x7b\"name\":\"p\",\"arity\":1,\"tuples\":[]\x7d]\x7d" := by
  decide +kernel

theorem write_round_trip_awkward :
    parse? awkward.write = some awkward ∧
      parse? loose = some tidy ∧ loose ≠ tidy.write ∧
      parse? tidy.write = some tidy ∧ (parse? tidy.write).map write = some tidy.write := by
  have hawkward : awkward.Representable := by
    unfold Representable
    decide
  have hloose : parse? loose = some tidy := by decide +kernel
  have hother : loose ≠ tidy.write := by decide +kernel
  exact ⟨write_round_trip.1 awkward hawkward, hloose, hother, write_round_trip.2 loose tidy hloose⟩

end Dataset

end RelationAlgebra
