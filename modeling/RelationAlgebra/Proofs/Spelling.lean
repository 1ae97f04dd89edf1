import Mathlib.Data.List.Nodup
import RelationAlgebra.Proofs.Word

/-!
# Every spelling of a dataset is read

A dataset may be written in many ways (`Dataset.Spells`). A record is the array of its fields, where
fields at the end may be left out if they have their default, or an object with the fields in any
order, where any field may be left out if it has its default and other members may stand between
them; in a set of properties they may not (`Json.WritesRecord`). Such a value is written with any
blanks and any escapes (`Json.Spells`).

A text is read as a dataset just if it is one of its spellings
(`Dataset.parse?_eq_some_iff_spells`).
-/

namespace RelationAlgebra

namespace Json

/-! ## Records -/

/-- A field of a record: its name, the values that may be written for it, and whether it may be left
out. -/
structure Field where
  name : String
  Writes : Json → Prop
  Optional : Prop

/-- Whether members of an object are what is given for a field: one member, or none where the field
may be left out. -/
inductive Field.Given (f : Field) : List (String × Json) → Prop where
  | member {v : Json} (h : f.Writes v) : f.Given [(f.name, v)]
  | missing (h : f.Optional) : f.Given []

/-- Whether the items of an array are what is given for fields in their order. Fields at the end
may be left out. -/
inductive GivenInOrder : List Field → List Json → Prop where
  | nil {fields : List Field} (h : ∀ f ∈ fields, f.Optional) : GivenInOrder fields []
  | cons {f : Field} {fields : List Field} {v : Json} {items : List Json} (hv : f.Writes v)
    (hitems : GivenInOrder fields items) : GivenInOrder (f :: fields) (v :: items)

/-- Whether a value is a record of the listed fields. A closed record has no other members. -/
inductive WritesRecord (fields : List Field) (closed : Bool) : Json → Prop where
  | array {items : List Json} (h : GivenInOrder fields items) :
    WritesRecord fields closed (.array items)
  | object {members given others : List (String × Json)} (horder : members.Perm (given ++ others))
    (hgiven : Spelled Field.Given fields given)
    (hothers : ∀ m ∈ others, m.1 ∉ fields.map Field.name) (hclosed : closed → others = []) :
    WritesRecord fields closed (record members)

/-- Whether a value is an array of values that are written for the members of a list. -/
inductive WritesList {α : Type} (R : α → Json → Prop) (xs : List α) : Json → Prop where
  | array {items : List Json} (h : List.Forall₂ R xs items) : WritesList R xs (.array items)

/-- Whether what is given for a record has a field, or may go without it. -/
def Field.Held (f : Field) (given : List (String × Json)) : Prop :=
  match given.lookup f.name with
  | some v => f.Writes v
  | none => f.Optional

theorem Field.held_cons_self {f : Field} {v : Json} {given : List (String × Json)} :
    f.Held ((f.name, v) :: given) ↔ f.Writes v := by
  simp [Held]

theorem Field.held_cons_of_ne {f : Field} {key : String} (h : f.name ≠ key) (v : Json)
    (given : List (String × Json)) : f.Held ((key, v) :: given) ↔ f.Held given := by
  have hne : (f.name == key) = false := by simpa using h
  simp [Held, List.lookup_cons, hne]

/-- Where no key repeats, what is looked up is the one member with the key. -/
theorem lookup_eq_some_iff_mem {ms : List (String × Json)} (h : (ms.map (·.1)).Nodup)
    {name : String} {v : Json} : ms.lookup name = some v ↔ (name, v) ∈ ms := by
  induction ms with
  | nil => simp
  | cons m ms ih =>
    obtain ⟨key, w⟩ := m
    rw [List.map_cons, List.nodup_cons] at h
    by_cases hname : name = key
    · subst hname
      have hfresh : (name, v) ∉ ms := fun hmem => h.1 (List.mem_map.mpr ⟨_, hmem, rfl⟩)
      simp [hfresh, eq_comm]
    · have hne : (name == key) = false := by simpa using hname
      simp [List.lookup_cons, hne, ih h.2, hname]

/-- The order of members does not matter if no key repeats. -/
theorem lookup_of_perm {ms ns : List (String × Json)} (h : ms.Perm ns)
    (hdistinct : (ms.map (·.1)).Nodup) (name : String) : ms.lookup name = ns.lookup name := by
  have hns : (ns.map (·.1)).Nodup := (h.map _).nodup_iff.mp hdistinct
  ext v
  rw [lookup_eq_some_iff_mem hdistinct, lookup_eq_some_iff_mem hns, h.mem_iff]

/-- A field that is absent must be one that may be left out. -/
theorem Field.held_of_absent {f : Field} {given : List (String × Json)}
    (h : f.name ∉ given.map (·.1)) : f.Held given ↔ f.Optional := by
  have hnone : given.lookup f.name = none := by
    rw [List.lookup_eq_none_iff]
    intro m hm
    have hne : f.name ≠ m.1 := fun heq => h (heq ▸ List.mem_map_of_mem hm)
    simpa using hne
  simp [Held, hnone]

/-- What is given for fields has their names, in their order. -/
theorem sublist_of_spelled {fields : List Field} {given : List (String × Json)}
    (h : Spelled Field.Given fields given) : (given.map (·.1)).Sublist (fields.map Field.name) := by
  induction h with
  | nil => exact .slnil
  | cons hf _ ih =>
    cases hf with
    | member => exact ih.cons_cons _
    | missing => exact ih.cons _

/-- What is given for distinct fields has each of them. -/
theorem held_of_spelled {fields : List Field} {given : List (String × Json)}
    (hdistinct : (fields.map Field.name).Nodup) (h : Spelled Field.Given fields given) :
    ∀ f ∈ fields, f.Held given := by
  induction h with
  | nil => simp
  | @cons f fields part given hf hgiven ih =>
    rw [List.map_cons, List.nodup_cons] at hdistinct
    obtain ⟨hfresh, hdistinct⟩ := hdistinct
    have habsent : f.name ∉ given.map (·.1) :=
      fun hmem => hfresh ((sublist_of_spelled hgiven).subset hmem)
    specialize ih hdistinct
    cases hf with
    | @member v hv =>
      refine List.forall_mem_cons.mpr ⟨Field.held_cons_self.mpr hv, fun g hg => ?_⟩
      have hne : g.name ≠ f.name := fun h => hfresh (h ▸ List.mem_map_of_mem hg)
      exact (Field.held_cons_of_ne hne v given).mpr (ih g hg)
    | missing hmay => exact List.forall_mem_cons.mpr ⟨(Field.held_of_absent habsent).mpr hmay, ih⟩

/-- The members for each field in turn, out of what is given. -/
def membersOf (given : List (String × Json)) (fields : List Field) : List (String × Json) :=
  fields.filterMap fun f => (given.lookup f.name).map fun v => (f.name, v)

theorem spelled_membersOf {fields : List Field} {given : List (String × Json)}
    (h : ∀ f ∈ fields, f.Held given) : Spelled Field.Given fields (membersOf given fields) := by
  induction fields with
  | nil => exact .nil
  | cons f fields ih =>
    rw [List.forall_mem_cons] at h
    obtain ⟨hf, hfields⟩ := h
    unfold Field.Held at hf
    cases hlookup : given.lookup f.name with
    | some v =>
      rw [hlookup] at hf
      rw [membersOf, List.filterMap_cons_some (by rw [hlookup]; rfl)]
      exact .cons (.member hf) (ih hfields)
    | none =>
      rw [hlookup] at hf
      rw [membersOf, List.filterMap_cons_none (by rw [hlookup]; rfl)]
      exact .cons (p := []) (.missing hf) (ih hfields)

theorem mem_membersOf {fields : List Field} {given : List (String × Json)}
    (hgiven : (given.map (·.1)).Nodup) {m : String × Json} :
    m ∈ membersOf given fields ↔ m ∈ given ∧ m.1 ∈ fields.map Field.name := by
  obtain ⟨key, v⟩ := m
  simp only [membersOf, List.mem_filterMap, Option.map_eq_some_iff, lookup_eq_some_iff_mem hgiven,
    Prod.mk.injEq, List.mem_map]
  constructor
  · rintro ⟨f, hf, w, hw, rfl, rfl⟩
    exact ⟨hw, f, hf, rfl⟩
  · rintro ⟨hw, f, hf, rfl⟩
    exact ⟨f, hf, v, hw, rfl, rfl⟩

/-- What is given for known fields is the members for them in some order. -/
theorem perm_membersOf {fields : List Field} {given : List (String × Json)}
    (hdistinct : (fields.map Field.name).Nodup) (hgiven : (given.map (·.1)).Nodup)
    (hknown : ∀ m ∈ given, m.1 ∈ fields.map Field.name) (hheld : ∀ f ∈ fields, f.Held given) :
    given.Perm (membersOf given fields) := by
  have hkeys := (sublist_of_spelled (spelled_membersOf hheld)).nodup hdistinct
  rw [List.perm_ext_iff_of_nodup (.of_map _ hgiven) (.of_map _ hkeys)]
  intro m
  rw [mem_membersOf hgiven]
  exact ⟨fun hm => ⟨hm, hknown m hm⟩, And.left⟩

/-! ## Reading records -/

theorem GivenInOrder.length_le {fields : List Field} {items : List Json}
    (h : GivenInOrder fields items) : items.length ≤ fields.length := by
  induction h with
  | nil => simp
  | cons _ _ ih => simpa using ih

/-- Items are given for fields in order when each field holds among the items under their names. -/
theorem givenInOrder_iff {fields : List Field} {items : List Json}
    (hdistinct : (fields.map Field.name).Nodup) (hlength : items.length ≤ fields.length) :
    GivenInOrder fields items ↔ ∀ f ∈ fields, f.Held ((fields.map Field.name).zip items) := by
  induction fields generalizing items with
  | nil =>
    obtain rfl := List.length_eq_zero_iff.mp (Nat.le_zero.mp hlength)
    exact ⟨fun _ => nofun, fun _ => .nil nofun⟩
  | cons f fields ih =>
    cases items with
    | nil =>
      rw [List.zip_nil_right]
      exact ⟨fun | .nil h => h, .nil⟩
    | cons v items =>
      rw [List.map_cons, List.nodup_cons] at hdistinct
      obtain ⟨hfresh, hdistinct⟩ := hdistinct
      have hothers (given : List (String × Json)) :
          (∀ g ∈ fields, g.Held ((f.name, v) :: given)) ↔ ∀ g ∈ fields, g.Held given := by
        refine forall₂_congr fun g hg => Field.held_cons_of_ne (fun h => hfresh ?_) v given
        exact h ▸ List.mem_map_of_mem hg
      rw [List.map_cons, List.zip_cons_cons, List.forall_mem_cons, Field.held_cons_self, hothers,
        ← ih hdistinct (by simpa using hlength)]
      exact ⟨fun | .cons hv hitems => ⟨hv, hitems⟩, fun ⟨hv, hitems⟩ => .cons hv hitems⟩

/-- An object is read as a record only if every key is a text. -/
theorem exists_record_of_record? {names : List String} {closed : Bool}
    {members : List (Option String × Json)} {given : List (String × Json)}
    (h : (object members).record? names closed = some given) :
    ∃ named, object members = record named := by
  simp only [record?, Option.bind_eq_bind, Option.bind_eq_some_iff] at h
  obtain ⟨named, hnamed, -⟩ := h
  refine ⟨named, congrArg object ?_⟩
  rw [mapM_eq_some_iff] at hnamed
  induction hnamed with
  | nil => rfl
  | @cons m n ms ns hm _ ih =>
    obtain ⟨key, v⟩ := n
    obtain ⟨name, rfl, rfl⟩ := Option.map_eq_some_iff.mp hm
    rw [ih]
    rfl

theorem guard_bind_eq_some_iff {α : Type} {p : Prop} [Decidable p] {f : Unit → Option α} {x : α} :
    (guard p : Option Unit).bind f = some x ↔ p ∧ f () = some x := by
  by_cases hp : p <;> simp [guard, hp]

/-- An object is read as a record of its known members, if none is given twice and others may stand
there. -/
theorem record?_record_eq_some_iff {names : List String} {closed : Bool}
    {members given : List (String × Json)} :
    (record members).record? names closed = some given ↔
      members.filter (fun m => m.1 ∈ names) = given ∧ (given.map (·.1)).Nodup ∧
        (closed → ∀ m ∈ members, m.1 ∈ names) := by
  have hkeys : (members.map fun m => (some m.1, m.2)).mapM
      (fun m => m.1.map fun key => (key, m.2)) = some members :=
    mapM_map_eq_some fun _ _ => rfl
  have hcontains : members.filter (fun m => names.contains m.1) =
      members.filter fun m => m.1 ∈ names := by simp
  have hclosed : (!closed || (members.filter fun m => m.1 ∈ names).length == members.length) ↔
      (closed → ∀ m ∈ members, m.1 ∈ names) := by
    cases closed <;> simp
  simp only [record, record?, hkeys, Option.bind_eq_bind, Option.bind_some,
    guard_bind_eq_some_iff, hcontains, hclosed, Option.pure_def, Option.some.injEq]
  constructor
  · rintro ⟨hdistinct, hclosed, rfl⟩
    exact ⟨rfl, hdistinct, hclosed⟩
  · rintro ⟨rfl, hdistinct, hclosed⟩
    exact ⟨hdistinct, hclosed, rfl⟩

/-- Records are read from the values that write them, and from no others. -/
theorem writesRecord_iff {fields : List Field} {closed : Bool} {v : Json}
    (hdistinct : (fields.map Field.name).Nodup) :
    WritesRecord fields closed v ↔
      ∃ given, v.record? (fields.map Field.name) closed = some given ∧
        ∀ f ∈ fields, f.Held given := by
  constructor
  · rintro (⟨hitems⟩ | ⟨horder, hgiven, hothers, hclosed⟩)
    · have hlength := hitems.length_le
      exact ⟨_, if_pos (by simpa using hlength), (givenInOrder_iff hdistinct hlength).mp hitems⟩
    next members given others =>
      have hsub := sublist_of_spelled hgiven
      have hfields : ∀ m ∈ given, m.1 ∈ fields.map Field.name :=
        fun m hm => hsub.subset (List.mem_map_of_mem hm)
      have hgiven' : given.filter (fun m => m.1 ∈ fields.map Field.name) = given :=
        List.filter_eq_self.mpr (by simpa using hfields)
      have hothers' : others.filter (fun m => m.1 ∈ fields.map Field.name) = [] :=
        List.filter_eq_nil_iff.mpr (by simpa using hothers)
      have hknown := horder.filter fun m => m.1 ∈ fields.map Field.name
      rw [List.filter_append, hgiven', hothers', List.append_nil] at hknown
      have hkeys := (hknown.map (·.1)).nodup_iff.mpr (hsub.nodup hdistinct)
      refine ⟨_, record?_record_eq_some_iff.mpr ⟨rfl, hkeys, fun h m hm => ?_⟩, fun f hf => ?_⟩
      · rw [horder.mem_iff, hclosed h, List.append_nil] at hm
        exact hfields m hm
      · rw [Field.Held, lookup_of_perm hknown hkeys]
        exact held_of_spelled hdistinct hgiven f hf
  · rintro ⟨given, hrecord, hheld⟩
    cases v with
    | array items =>
      rw [record?] at hrecord
      split_ifs at hrecord with hlength
      obtain rfl := Option.some.inj hrecord
      exact .array ((givenInOrder_iff hdistinct (by simpa using hlength)).mpr hheld)
    | object members =>
      obtain ⟨named, hnamed⟩ := exists_record_of_record? hrecord
      rw [hnamed] at hrecord ⊢
      obtain ⟨rfl, hkeys, hclosed⟩ := record?_record_eq_some_iff.mp hrecord
      have hperm := perm_membersOf hdistinct hkeys (by simp) hheld
      have horder := List.filter_append_perm (fun m => m.1 ∈ fields.map Field.name) named
      refine .object (horder.symm.trans (hperm.append_right _)) (spelled_membersOf hheld)
        (by simp) fun h => ?_
      simpa using hclosed h
    | _ => cases hrecord

theorem bool?_eq_some_iff {v : Json} {b : Bool} : bool? v = some b ↔ v = .bool b := by
  cases v <;> simp [bool?]

theorem text?_eq_some_iff {v : Json} {s : String} : text? v = some s ↔ v = .text s := by
  cases v <;> simp [text?, text]

theorem natural?_eq_some_iff {v : Json} {bound n : Nat} (h : n < bound) :
    natural? bound v = some n ↔ v = .int n := by
  refine ⟨fun hv => ?_, fun hv => hv ▸ natural?_int h⟩
  unfold natural? at hv
  split at hv
  next =>
    split_ifs at hv
    cases hv
    rfl
  next => cases hv

variable {α : Type} {f : Field} {given : List (String × Json)} {decode : Json → Option α}
  {default : Option α} {x : α}

/-- A field is decoded just where it is held. -/
theorem field?_eq_some_iff (hdecode : ∀ v, decode v = some x ↔ f.Writes v)
    (hdefault : default = some x ↔ f.Optional) :
    field? given f.name decode default = some x ↔ f.Held given := by
  unfold field? Field.Held
  cases given.lookup f.name with
  | some v => exact hdecode v
  | none => exact hdefault

theorem writesList_eq_iff {toJson : α → Json} {xs : List α} {v : Json} :
    WritesList (fun x v => v = toJson x) xs v ↔ v = .array (xs.map toJson) := by
  have hiff (items : List Json) :
      List.Forall₂ (fun x v => v = toJson x) xs items ↔ items = xs.map toJson := by
    clear v
    induction xs generalizing items with
    | nil => simp
    | cons x xs ih => cases items <;> simp [ih]
  constructor
  · rintro ⟨h⟩
    rw [(hiff _).mp h]
  · rintro rfl
    exact .array ((hiff _).mpr rfl)

/-- A list is decoded from an array whose items are decoded to its members. -/
theorem list?_eq_some_iff {R : α → Json → Prop} {xs : List α} {v : Json}
    (h : ∀ x ∈ xs, ∀ v, decode v = some x ↔ R x v) :
    list? decode v = some xs ↔ WritesList R xs v := by
  have hiff (items : List Json) :
      List.Forall₂ (fun x v => decode v = some x) xs items ↔ List.Forall₂ R xs items := by
    clear v
    induction xs generalizing items with
    | nil => simp
    | cons x xs ih =>
      rw [List.forall_mem_cons] at h
      cases items with
      | nil => simp
      | cons v items => rw [List.forall₂_cons, List.forall₂_cons, h.1, ih h.2]
  cases v with
  | array items =>
    rw [list?, mapM_eq_some_iff, hiff]
    exact ⟨.array, fun | .array h => h⟩
  | _ => exact ⟨nofun, nofun⟩

end Json

/-! ## Atoms, tuples and entries -/

/-- An atom is decoded from the one value that is written for it. -/
theorem Atom.ofJson?_eq_some_iff {a : Atom} {v : Json} : ofJson? v = some a ↔ v = a.toJson := by
  refine ⟨fun h => ?_, fun h => h ▸ a.ofJson?_toJson⟩
  cases v with
  | bool b => cases h; rfl
  | int i =>
    obtain ⟨j, hj, rfl⟩ := Option.map_eq_some_iff.mp h
    rw [toJson, Decimal.int64?_eq_some_iff.mp hj]
  | string s =>
    obtain ⟨s, rfl, rfl⟩ := Option.map_eq_some_iff.mp h
    rfl
  | _ => cases h

theorem Tuple.ofJson?_eq_some_iff {t : Tuple} {v : Json} : ofJson? v = some t ↔ v = t.toJson := by
  rw [ofJson?, Json.list?_eq_some_iff fun a _ v => Atom.ofJson?_eq_some_iff, toJson]
  exact Json.writesList_eq_iff

theorem Entry.ofJson?_eq_some_iff {e : Entry} {v : Json} : ofJson? v = some e ↔ v = e.toJson := by
  refine ⟨fun h => ?_, fun h => h ▸ e.ofJson?_toJson⟩
  unfold ofJson? at h
  split at h
  next items =>
    obtain ⟨t, ht, rfl⟩ := Option.map_eq_some_iff.mp h
    exact Tuple.ofJson?_eq_some_iff.mp ht
  next =>
    obtain ⟨a, ha, rfl⟩ := Option.map_eq_some_iff.mp h
    exact Atom.ofJson?_eq_some_iff.mp ha

/-! ## Records of a dataset -/

/-- The fields of a set of properties. -/
def PropertySet.fields (ps : PropertySet) : List Json.Field :=
  Property.all.map fun p => {
    name := p.name
    Writes := fun v => v = .bool (ps.declares p)
    Optional := ps.declares p = false }

/-- Whether a value is a set of properties. -/
def PropertySet.Writes (ps : PropertySet) (v : Json) : Prop := Json.WritesRecord ps.fields true v

/-- The fields of a declaration. -/
def Declaration.fields (d : Declaration) : List Json.Field := [
  { name := "name", Writes := fun v => v = .text d.name, Optional := False },
  { name := "arity", Writes := fun v => v = .int d.arity, Optional := False },
  { name := "properties", Writes := d.properties.Writes, Optional := d.properties = {} },
  { name := "tuples", Writes := Json.WritesList (fun e v => v = e.toJson) d.entries,
    Optional := d.entries = [] }]

/-- Whether a value is a declaration. -/
def Declaration.Writes (d : Declaration) (v : Json) : Prop := Json.WritesRecord d.fields false v

/-- The fields of a dataset. -/
def Dataset.fields (d : Dataset) : List Json.Field := [
  { name := "relations", Writes := Json.WritesList Declaration.Writes d.relations,
    Optional := d.relations = [] }]

/-- Whether a value is a dataset. -/
def Dataset.Writes (d : Dataset) (v : Json) : Prop := Json.WritesRecord d.fields false v

/-- Whether a text is a spelling of a dataset. -/
def Dataset.Spells (d : Dataset) (text : String) : Prop := ∃ v, d.Writes v ∧ v.Spells text

/-- Properties are decoded just from what may be written for them. -/
theorem PropertySet.ofJson?_eq_some_iff {ps : PropertySet} {v : Json} :
    ofJson? v = some ps ↔ ps.Writes v := by
  have hnames : ps.fields.map Json.Field.name = Property.all.map Property.name := by
    simp [fields]
  have hdistinct : (ps.fields.map Json.Field.name).Nodup := by
    rw [hnames]
    decide
  have hheld (given : List (String × Json)) :
      (∀ f ∈ ps.fields, f.Held given) ↔ ∀ p ∈ Property.all,
        Json.field? given p.name Json.bool? (some false) = some (ps.declares p) := by
    rw [fields, List.forall_mem_map]
    refine forall₂_congr fun p _ => ?_
    exact (Json.field?_eq_some_iff (fun _ => Json.bool?_eq_some_iff)
      (by rw [Option.some.injEq, eq_comm])).symm
  rw [Writes, Json.writesRecord_iff hdistinct, hnames]
  simp only [hheld, ofJson?, Option.bind_eq_bind, Option.bind_eq_some_iff, Option.pure_def,
    Option.some.injEq]
  constructor
  · rintro ⟨given, hgiven, _, hr, _, hi, _, hs, _, ha, _, ht, rfl⟩
    exact ⟨given, hgiven, fun p _ => by cases p <;> assumption⟩
  · rintro ⟨given, hgiven, h⟩
    exact ⟨given, hgiven, _, h .reflexive (by decide), _, h .irreflexive (by decide), _,
      h .symmetric (by decide), _, h .asymmetric (by decide), _, h .transitive (by decide), rfl⟩

/-- A declaration is decoded just from what may be written for it. -/
theorem Declaration.ofJson?_eq_some_iff {d : Declaration} {v : Json} (h : d.arity < arityBound) :
    ofJson? v = some d ↔ d.Writes v := by
  have hdistinct : (d.fields.map Json.Field.name).Nodup := by simp [fields]
  have hheld (given : List (String × Json)) :
      (∀ f ∈ d.fields, f.Held given) ↔
        Json.field? given "name" Json.text? none = some d.name ∧
        Json.field? given "arity" (Json.natural? arityBound) none = some d.arity ∧
        Json.field? given "properties" PropertySet.ofJson? (some {}) = some d.properties ∧
        Json.field? given "tuples" (Json.list? Entry.ofJson?) (some []) = some d.entries := by
    rw [fields, List.forall_mem_cons, List.forall_mem_cons, List.forall_mem_cons,
      List.forall_mem_singleton]
    refine and_congr ?_ (and_congr ?_ (and_congr ?_ ?_))
    · exact (Json.field?_eq_some_iff (fun _ => Json.text?_eq_some_iff) (by simp)).symm
    · exact (Json.field?_eq_some_iff (fun _ => Json.natural?_eq_some_iff h) (by simp)).symm
    · exact (Json.field?_eq_some_iff (fun _ => PropertySet.ofJson?_eq_some_iff)
        (by rw [Option.some.injEq, eq_comm])).symm
    · exact (Json.field?_eq_some_iff
        (fun _ => Json.list?_eq_some_iff fun _ _ _ => Entry.ofJson?_eq_some_iff)
        (by rw [Option.some.injEq, eq_comm])).symm
  rw [Writes, Json.writesRecord_iff hdistinct]
  simp only [hheld, ofJson?, Option.bind_eq_bind, Option.bind_eq_some_iff, Option.pure_def,
    Option.some.injEq]
  constructor
  · rintro ⟨given, hgiven, _, hname, _, harity, _, hproperties, _, hentries, rfl⟩
    exact ⟨given, hgiven, hname, harity, hproperties, hentries⟩
  · rintro ⟨given, hgiven, hname, harity, hproperties, hentries⟩
    exact ⟨given, hgiven, _, hname, _, harity, _, hproperties, _, hentries, rfl⟩

namespace Dataset

theorem ofJson?_eq_some_iff {d : Dataset} {v : Json} (h : d.Representable) :
    ofJson? v = some d ↔ d.Writes v := by
  have hdistinct : (d.fields.map Json.Field.name).Nodup := by simp [fields]
  have hheld (given : List (String × Json)) :
      (∀ f ∈ d.fields, f.Held given) ↔
        Json.field? given "relations" (Json.list? Declaration.ofJson?) (some []) =
          some d.relations := by
    rw [fields, List.forall_mem_singleton]
    exact (Json.field?_eq_some_iff
      (fun _ => Json.list?_eq_some_iff fun e he _ => Declaration.ofJson?_eq_some_iff (h e he))
      (by rw [Option.some.injEq, eq_comm])).symm
  rw [Writes, Json.writesRecord_iff hdistinct]
  simp only [hheld, ofJson?, Option.bind_eq_bind, Option.bind_eq_some_iff, Option.pure_def,
    Option.some.injEq]
  constructor
  · rintro ⟨given, hgiven, relations, hrelations, rfl⟩
    exact ⟨given, hgiven, hrelations⟩
  · rintro ⟨given, hgiven, hrelations⟩
    exact ⟨given, hgiven, _, hrelations, rfl⟩

/-- A text is read as a dataset just if it is one of its spellings: with the fields of its records
in any order, beside other members or in an array, with fields left out that have their default,
and with any blanks and escapes. -/
theorem parse?_eq_some_iff_spells {text : String} {d : Dataset} :
    parse? text = some d ↔ d.Representable ∧ d.Spells text := by
  rw [parse?, Option.bind_eq_some_iff]
  constructor
  · rintro ⟨v, hv, hd⟩
    have h := representable_of_ofJson? hd
    exact ⟨h, v, (ofJson?_eq_some_iff h).mp hd, Json.parse?_eq_some_iff.mp hv⟩
  · rintro ⟨h, v, hd, hv⟩
    exact ⟨v, Json.parse?_eq_some_iff.mpr hv, (ofJson?_eq_some_iff h).mpr hd⟩

/-- Two declarations, one by the order and one by the names of its fields. -/
example :
    parse? (" [[[\"p\",1,[],[\"a\"]],\x7b\"z\":\x7b\"\\ud800\":[-0.5E+3,[[]]]\x7d," ++
      "\"tuples\":[[\"\\ud834\\udd1e\"]],\"arit\\u0079\" : 1,\r\"name\":\"q\"\x7d]\t]\n") =
      some { relations := [
        { name := "p", arity := 1, entries := [.bare (.text "a")] },
        { name := "q", arity := 1, entries := [.row [.text "𝄞"]] }] } := by
  decide +kernel

end Dataset

end RelationAlgebra
