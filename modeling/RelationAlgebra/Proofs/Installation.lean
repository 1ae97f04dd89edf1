import RelationAlgebra.Proofs.Binding
import RelationAlgebra.Proofs.Commit
import RelationAlgebra.Proofs.Insertion
import RelationAlgebra.Proofs.Session

/-!
# What installing a dataset means

A dataset may declare a name several times, with declarations of other names in between. It comes to
the same as if the declarations of each name stood together: the first of them says what is made, the
later ones have to agree with it, and the tuples of all of them are added in order
(`Declaration.MergesTo`). Staging declaration after declaration finds just that
(`Dataset.staging_eq_ok_iff`), because what is staged under one name depends on the declarations of
this name alone. So a dataset can be installed if the declarations of every name merge, and what is
made of a name is the same however they are interleaved with others (`Store.install_iff_merges`).
-/

namespace RelationAlgebra

namespace Declaration

variable {d first : Declaration} {ds later : List Declaration} {schema staged : Schema}
  {x y : Extension} {name : String}

/-! ## The declarations of one name -/

/-- The tuples of declarations, in order. -/
def tuples (ds : List Declaration) : List Tuple := ds.flatMap fun d => d.entries.map Entry.tuple

/-- Whether the declarations of one name, the first and the later ones, make a relation that has the
rows of `x`. -/
structure MergesTo (first : Declaration) (later : List Declaration) (x : Extension) : Prop where
  arity : ∀ d ∈ later, d.arity = first.arity
  declarable : first.declared.Declarable
  properties : ∀ d ∈ later, d.properties = {} ∨ d.properties = first.properties
  loads : first.declared.insertAll (.empty first.arity) (tuples (first :: later)) = .ok x

theorem MergesTo.eq (hx : first.MergesTo later x) (hy : first.MergesTo later y) : x = y :=
  Except.ok.inj (hx.loads.symm.trans hy.loads)

/-- The extension has the arity of the first declaration, and its rows are the distinct tuples of
the declarations, in the order in which they are first given. -/
theorem MergesTo.eq_rows (h : first.MergesTo later x) :
    x = ⟨first.arity, (tuples (first :: later)).eraseDups⟩ := by
  rw [Schema.eq_pushAll_of_insertAll h.loads, ← Extension.rows_pushAll_empty first.arity]
  exact congrArg (Extension.mk · _) (Extension.arity_pushAll _ _)

theorem mergesTo_nil_iff : first.MergesTo [] x ↔
    first.declared.Declarable ∧
      first.declared.insertAll (.empty first.arity) (first.entries.map Entry.tuple) = .ok x := by
  have htuples : tuples [first] = first.entries.map Entry.tuple := by simp [tuples]
  constructor
  · intro h
    exact ⟨h.declarable, htuples ▸ h.loads⟩
  · rintro ⟨hdeclarable, hloads⟩
    exact ⟨by simp, hdeclarable, by simp, htuples ▸ hloads⟩

/-- One more declaration has to agree with the first, and its tuples are added behind the others. -/
theorem mergesTo_concat_iff : first.MergesTo (later ++ [d]) y ↔
    d.arity = first.arity ∧ (d.properties = {} ∨ d.properties = first.properties) ∧
      ∃ x, first.MergesTo later x ∧
        first.declared.insertAll x (d.entries.map Entry.tuple) = .ok y := by
  have htuples : tuples (first :: (later ++ [d])) =
      tuples (first :: later) ++ d.entries.map Entry.tuple := by simp [tuples]
  constructor
  · rintro ⟨harity, hdeclarable, hproperties, hloads⟩
    rw [List.forall_mem_append, List.forall_mem_singleton] at harity hproperties
    rw [htuples, Schema.insertAll_append_eq_ok_iff] at hloads
    obtain ⟨x, hx, hy⟩ := hloads
    exact ⟨harity.2, hproperties.2, x, ⟨harity.1, hdeclarable, hproperties.1, hx⟩, hy⟩
  · rintro ⟨harity, hproperties, x, hx, hy⟩
    refine ⟨?_, hx.declarable, ?_, ?_⟩
    · rw [List.forall_mem_append, List.forall_mem_singleton]
      exact ⟨hx.arity, harity⟩
    · rw [List.forall_mem_append, List.forall_mem_singleton]
      exact ⟨hx.properties, hproperties⟩
    · rw [htuples, Schema.insertAll_append_eq_ok_iff]
      exact ⟨x, hx.loads, hy⟩

theorem merge_eq_ok_iff : d.merge staged = .ok schema ↔
    schema = staged ∧ d.arity = staged.arity ∧
      (d.properties = {} ∨ d.properties = staged.properties) := by
  unfold Declaration.merge
  by_cases harity : staged.arity = d.arity
  · by_cases hempty : d.properties = {}
    · simp [harity, PropertySet.isEmpty, hempty, eq_comm]
    · by_cases hsame : d.properties = staged.properties <;>
        simp [harity, PropertySet.isEmpty, hempty, hsame, eq_comm]
  · simp [harity, Ne.symm harity]

/-! ## Declarations by their names -/

/-- The declared names, in the order of their first declarations. -/
def names (ds : List Declaration) : List String := (ds.map Declaration.name).eraseDups

/-- The declarations of one name, in order. -/
def named (ds : List Declaration) (name : String) : List Declaration :=
  ds.filter fun d => d.name == name

theorem nodup_names (ds : List Declaration) : (names ds).Nodup := nodup_eraseDups _

theorem mem_names : name ∈ names ds ↔ ∃ d ∈ ds, d.name = name := by
  rw [names, List.mem_eraseDups, List.mem_map]

theorem named_eq_nil_iff : named ds name = [] ↔ name ∉ names ds := by
  simp [named, mem_names]

theorem names_concat (ds : List Declaration) (d : Declaration) :
    names (ds ++ [d]) = if d.name ∈ names ds then names ds else names ds ++ [d.name] := by
  simp only [names, List.mem_eraseDups, List.map_append, List.map_singleton, eraseDups_concat]

theorem named_concat_self (ds : List Declaration) (d : Declaration) :
    named (ds ++ [d]) d.name = named ds d.name ++ [d] := by
  simp [named]

/-- A declaration of another name is not among those of a name. -/
theorem named_concat_of_ne (ds : List Declaration) (h : name ≠ d.name) :
    named (ds ++ [d]) name = named ds name := by
  simp [named, Ne.symm h]

/-- Whether what is staged under a name is what the declarations of this name come to. -/
def ComesTo (ds : List Declaration) (entry : Schema × Extension) : Prop :=
  ∃ first later, named ds entry.1.name = first :: later ∧ entry.1 = first.declared ∧
    first.MergesTo later entry.2

/-- What declarations come to is told apart by its name. -/
theorem ComesTo.eq {entry entry' : Schema × Extension} (h : ComesTo ds entry)
    (h' : ComesTo ds entry') (hname : entry.1.name = entry'.1.name) : entry = entry' := by
  obtain ⟨first, later, hnamed, hschema, hmerges⟩ := h
  obtain ⟨first', later', hnamed', hschema', hmerges'⟩ := h'
  rw [hname, hnamed'] at hnamed
  obtain ⟨rfl, rfl⟩ := List.cons.inj hnamed
  exact Prod.ext (hschema.trans hschema'.symm) (hmerges.eq hmerges')

/-- A declaration of another name leaves alone what a name came to. -/
theorem ComesTo.concat_of_ne {entry : Schema × Extension} (h : ComesTo ds entry)
    (hne : entry.1.name ≠ d.name) : ComesTo (ds ++ [d]) entry := by
  rw [ComesTo, named_concat_of_ne ds hne]
  exact h

/-- Whether the declarations of every name merge. -/
def Mergeable (ds : List Declaration) : Prop :=
  ∀ name first later, named ds name = first :: later → ∃ x, first.MergesTo later x

/-- Declarations that merge do so without the last of them. -/
theorem Mergeable.of_concat (h : Mergeable (ds ++ [d])) : Mergeable ds := by
  intro name first later hnamed
  by_cases hname : name = d.name
  · subst hname
    have hconcat : named (ds ++ [d]) d.name = first :: (later ++ [d]) := by
      rw [named_concat_self, hnamed, List.cons_append]
    obtain ⟨y, hy⟩ := h _ _ _ hconcat
    obtain ⟨-, -, x, hx, -⟩ := mergesTo_concat_iff.mp hy
    exact ⟨x, hx⟩
  · rw [← named_concat_of_ne ds hname] at hnamed
    exact h _ _ _ hnamed

end Declaration

/-! ## Staging -/

open Declaration (ComesTo Mergeable)

/-- Whether a staging is what declarations come to, name by name. -/
structure Staging.Collects (staging : Staging) (ds : List Declaration) : Prop where
  names : staging.map (fun entry => entry.1.name) = Declaration.names ds
  entries : ∀ entry ∈ staging, ComesTo ds entry

theorem Staging.collects_iff {staging : Staging} {ds : List Declaration} :
    staging.Collects ds ↔ staging.map (fun entry => entry.1.name) = Declaration.names ds ∧
      ∀ entry ∈ staging, ComesTo ds entry :=
  ⟨fun h => ⟨h.names, h.entries⟩, fun h => ⟨h.1, h.2⟩⟩

namespace Staging.Collects

variable {staging staging' : Staging} {ds ds' : List Declaration} {d : Declaration}

theorem distinct (h : staging.Collects ds) : staging.Distinct := by
  rw [Staging.Distinct, h.names]
  exact Declaration.nodup_names ds

theorem mem_names_iff (h : staging.Collects ds) {name : String} :
    name ∈ Declaration.names ds ↔ ∃ entry ∈ staging, entry.1.name = name := by
  rw [← h.names, List.mem_map]

/-- A staging is determined by its names, and by what is staged under each of them. -/
theorem eq (h : staging.Collects ds) (h' : staging'.Collects ds) : staging = staging' := by
  have hnames := h.names.trans h'.names.symm
  have hlen : staging.length = staging'.length := by
    simpa using congrArg List.length hnames
  refine List.ext_getElem hlen fun i hi hi' => ?_
  refine (h.entries _ (List.getElem_mem hi)).eq (h'.entries _ (List.getElem_mem hi')) ?_
  have hget := List.getElem_of_eq hnames (i := i) (by simpa using hi)
  simpa using hget

theorem mergeable (h : staging.Collects ds) : Mergeable ds := by
  intro name first later hnamed
  have hmem : name ∈ Declaration.names ds := by
    by_contra hno
    rw [Declaration.named_eq_nil_iff.mpr hno] at hnamed
    cases hnamed
  obtain ⟨entry, hentry, rfl⟩ := h.mem_names_iff.mp hmem
  obtain ⟨first', later', hnamed', -, hmerges⟩ := h.entries entry hentry
  rw [hnamed] at hnamed'
  obtain ⟨rfl, rfl⟩ := List.cons.inj hnamed'
  exact ⟨entry.2, hmerges⟩

/-- The names of the parts of a staging around one of its relations. -/
theorem name_ne_of_append {before after : Staging} {entry : Schema × Extension}
    (h : Staging.Distinct (before ++ entry :: after)) :
    ∀ other ∈ before ++ after, other.1.name ≠ entry.1.name := by
  rw [Staging.Distinct, List.map_append, List.map_cons, List.nodup_middle, List.nodup_cons] at h
  intro other hother heq
  refine h.1 ?_
  rw [← heq, ← List.map_append]
  exact List.mem_map_of_mem hother

/-- What staging one more declaration does: the declarations of its name must still merge, and what
they come to takes the place of what was staged under the name, or is put at the end. -/
theorem stage_cases (h : staging.Collects ds) :
    (∃ before first later x after, staging = before ++ (first.declared, x) :: after ∧
      first.name = d.name ∧ Declaration.named ds d.name = first :: later ∧
      ∀ staging', d.stage staging = .ok staging' ↔
        ∃ y, first.MergesTo (later ++ [d]) y ∧ before ++ (first.declared, y) :: after = staging') ∨
    (d.name ∉ Declaration.names ds ∧ (∀ entry ∈ staging, entry.1.name ≠ d.name) ∧
      ∀ staging', d.stage staging = .ok staging' ↔
        ∃ x, d.MergesTo [] x ∧ staging ++ [(d.declared, x)] = staging') := by
  rcases Declaration.stage_cases (d := d) h.distinct with
    ⟨before, schema, x, after, rfl, hname, -, heq⟩ | ⟨hno, heq⟩
  · obtain ⟨first, later, hnamed, hschema, hmerges⟩ := h.entries (schema, x) (by simp)
    obtain rfl : schema = first.declared := hschema
    refine Or.inl ⟨before, first, later, x, after, rfl, hname, hname ▸ hnamed, fun staging' => ?_⟩
    rw [heq]
    simp only [bind_eq_ok_iff, Declaration.merge_eq_ok_iff, Declaration.mergesTo_concat_iff]
    constructor
    · rintro ⟨merged, ⟨-, harity, hproperties⟩, y, hload, hstage⟩
      exact ⟨y, ⟨harity, hproperties, x, hmerges, mapError_eq_ok_iff.mp hload⟩,
        Except.ok.inj hstage⟩
    · rintro ⟨y, ⟨harity, hproperties, x', hx', hload⟩, rfl⟩
      obtain rfl := hmerges.eq hx'
      exact ⟨_, ⟨rfl, harity, hproperties⟩, y, mapError_eq_ok_iff.mpr hload, rfl⟩
  · refine Or.inr ⟨fun hmem => ?_, hno, fun staging' => ?_⟩
    · obtain ⟨entry, hentry, hname⟩ := h.mem_names_iff.mp hmem
      exact hno entry hentry hname
    · rw [heq]
      simp only [bind_eq_ok_iff, Declaration.schema_eq_ok_iff, Declaration.mergesTo_nil_iff]
      constructor
      · rintro ⟨schema, ⟨hdeclarable, rfl⟩, x, hload, hstage⟩
        exact ⟨x, ⟨hdeclarable, mapError_eq_ok_iff.mp hload⟩, Except.ok.inj hstage⟩
      · rintro ⟨x, ⟨hdeclarable, hload⟩, rfl⟩
        exact ⟨_, ⟨hdeclarable, rfl⟩, x, mapError_eq_ok_iff.mpr hload, rfl⟩

/-- One more declaration is staged as it comes to. -/
theorem stage (h : staging.Collects ds) (hstage : d.stage staging = .ok staging') :
    staging'.Collects (ds ++ [d]) := by
  rcases h.stage_cases (d := d) with
    ⟨before, first, later, x, after, rfl, hname, hnamed, hiff⟩ | ⟨hnames, hno, hiff⟩
  -- a relation of this name is staged already; the relations around it have other names
  · obtain ⟨y, hy, rfl⟩ := (hiff staging').mp hstage
    have hmem : d.name ∈ Declaration.names ds :=
      h.mem_names_iff.mpr ⟨(first.declared, x), by simp, hname⟩
    have hothers := name_ne_of_append h.distinct
    have hconcat : Declaration.named (ds ++ [d]) first.name = first :: (later ++ [d]) := by
      rw [hname, Declaration.named_concat_self, hnamed, List.cons_append]
    refine ⟨?_, fun entry hentry => ?_⟩
    · rw [Declaration.names_concat, if_pos hmem, ← h.names]
      simp
    · rw [List.mem_append, List.mem_cons, or_left_comm, ← List.mem_append] at hentry
      rcases hentry with rfl | hentry
      · exact ⟨first, later ++ [d], hconcat, rfl, hy⟩
      · have hcomes := h.entries entry
          (List.mem_append.mpr ((List.mem_append.mp hentry).imp_right (List.mem_cons_of_mem _)))
        have hne : entry.1.name ≠ first.name := hothers entry hentry
        exact hcomes.concat_of_ne (hname ▸ hne)
  · obtain ⟨x, hx, rfl⟩ := (hiff staging').mp hstage
    have hconcat : Declaration.named (ds ++ [d]) d.name = [d] := by
      rw [Declaration.named_concat_self, Declaration.named_eq_nil_iff.mpr hnames, List.nil_append]
    refine ⟨?_, fun entry hentry => ?_⟩
    · rw [Declaration.names_concat, if_neg hnames, ← h.names, List.map_append]
      rfl
    · rcases List.mem_append.mp hentry with hentry | hentry
      · exact (h.entries entry hentry).concat_of_ne (hno entry hentry)
      · obtain rfl := List.mem_singleton.mp hentry
        exact ⟨d, [], hconcat, rfl, hx⟩

theorem exists_stage (h : staging.Collects ds) (hmergeable : Mergeable (ds ++ [d])) :
    ∃ staging', d.stage staging = .ok staging' := by
  rcases h.stage_cases (d := d) with
    ⟨before, first, later, x, after, -, -, hnamed, hiff⟩ | ⟨hnames, -, hiff⟩
  · have hconcat : Declaration.named (ds ++ [d]) d.name = first :: (later ++ [d]) := by
      rw [Declaration.named_concat_self, hnamed, List.cons_append]
    obtain ⟨y, hy⟩ := hmergeable _ _ _ hconcat
    exact ⟨_, (hiff _).mpr ⟨y, hy, rfl⟩⟩
  · have hconcat : Declaration.named (ds ++ [d]) d.name = [d] := by
      rw [Declaration.named_concat_self, Declaration.named_eq_nil_iff.mpr hnames, List.nil_append]
    obtain ⟨x, hx⟩ := hmergeable _ _ _ hconcat
    exact ⟨_, (hiff _).mpr ⟨x, hx, rfl⟩⟩

end Staging.Collects

/-- By induction on the declarations, what is staged collects them. -/
theorem Declaration.collects_of_foldlM {ds : List Declaration} {staging : Staging}
    (h : ds.foldlM Declaration.stage [] = .ok staging) : staging.Collects ds := by
  induction ds using List.reverseRecOn generalizing staging with
  | nil =>
    obtain rfl : [] = staging := Except.ok.inj h
    exact ⟨rfl, by simp⟩
  | append_singleton ds d ih =>
    rw [List.foldlM_append] at h
    obtain ⟨before, hbefore, h⟩ := bind_eq_ok_iff.mp h
    obtain ⟨after, hafter, h⟩ := bind_eq_ok_iff.mp h
    obtain rfl := Except.ok.inj h
    exact (ih hbefore).stage hafter

/-- Declarations that merge can be staged from the first to the last. -/
theorem Declaration.exists_foldlM_of_mergeable {ds : List Declaration} (h : Mergeable ds) :
    ∃ staging, ds.foldlM Declaration.stage [] = .ok staging := by
  induction ds using List.reverseRecOn with
  | nil => exact ⟨[], rfl⟩
  | append_singleton ds d ih =>
    obtain ⟨before, hbefore⟩ := ih h.of_concat
    obtain ⟨after, hafter⟩ := (collects_of_foldlM hbefore).exists_stage h
    rw [List.foldlM_append]
    exact ⟨after, bind_eq_ok_iff.mpr ⟨before, hbefore, bind_eq_ok_iff.mpr ⟨after, hafter, rfl⟩⟩⟩

namespace Dataset

variable {d : Dataset} {staging : Staging}

/-- A dataset is staged as its declarations come to, name by name. -/
theorem staging_eq_ok_iff : d.staging = .ok staging ↔ staging.Collects d.relations := by
  constructor
  · exact Declaration.collects_of_foldlM
  · intro h
    obtain ⟨staging', hstaging'⟩ := Declaration.exists_foldlM_of_mergeable h.mergeable
    obtain rfl := h.eq (Declaration.collects_of_foldlM hstaging')
    exact hstaging'

end Dataset

namespace Store

variable {s s' : Store} {registry : String} {d : Dataset} {bs : List Base}

/-- An installation succeeds when the declarations can be collected, and commits what is. -/
theorem install_eq_ok_iff {result : List Base × Store} :
    s.install registry d = .ok result ↔
      ∃ staging : Staging, staging.Collects d.relations ∧ s.commit registry staging = result := by
  rw [install_eq_commit_iff]
  simp only [Dataset.staging_eq_ok_iff]

/-- What a dataset adds to a registry, and what it leaves as it is. -/
structure Installs (s : Store) (registry : String) (d : Dataset) (bs : List Base) (s' : Store) :
    Prop where
  /-- One relation is made for each name, in the order of first declarations. -/
  names : bs.map (fun b => b.name) = Declaration.names d.relations
  /-- It has the schema of the first declaration and the tuples of all of them. -/
  made : ∀ b ∈ bs, ∃ first later, Declaration.named d.relations b.name = first :: later ∧
    b.toSchema = first.declared ∧
    s'.extension b = ⟨first.arity, (Declaration.tuples (first :: later)).eraseDups⟩
  holds : ∀ b ∈ bs, s'.Holds b
  distinct : (bs.map Base.id).Nodup
  fresh : ∀ b ∈ bs, ∀ c, s.Holds c → b.id ≠ c.id
  registered : s'.registry registry = s.registry registry ++ bs
  registries : ∀ name, name ≠ registry → s'.registry name = s.registry name
  kept : ∀ c, s.Holds c → s'.extension c = s.extension c

/-- What is committed is what the installation promises for its dataset. -/
theorem Valid.installs (hs : s.Valid) (h : s.install registry d = .ok (bs, s')) :
    s.Installs registry d bs s' := by
  have hvalid := (hs.install h).1
  obtain ⟨staging, hcollects, hcommit⟩ := install_eq_ok_iff.mp h
  have hbs : (s.stage staging).1 = bs := by rw [← commit_fst s registry, hcommit]
  have hextension : ∀ b, s'.extension b = (s.stage staging).2.extension b := fun b => by
    rw [← extension_commit s registry, hcommit]
  have hregistry : ∀ name, s'.registry name =
      if name = registry then s.registry registry ++ bs else s.registry name := fun name => by
    have hname := registry_commit s registry staging name
    rwa [hcommit] at hname
  have hmade : ∀ b ∈ bs, (b.toSchema, s'.extension b) ∈ staging := by
    intro b hb
    rw [hextension]
    exact mem_of_mem_stage (hbs ▸ hb)
  have hlt : ∀ c, s.Holds c → c.id < s.next := by
    intro c hc
    obtain ⟨x, hx, -⟩ := hc.exists_lookup
    exact hs.next hx
  refine ⟨?_, fun b hb => ?_, fun b hb => ?_, ?_, fun b hb c hc => ?_, ?_, fun name hname => ?_,
    fun c hc => ?_⟩
  · have hschemas := congrArg (List.map Schema.name) (map_toSchema_stage s staging)
    rw [hbs, List.map_map, List.map_map] at hschemas
    exact hschemas.trans hcollects.names
  · obtain ⟨first, later, hnamed, hschema, hmerges⟩ := hcollects.entries _ (hmade b hb)
    exact ⟨first, later, hnamed, hschema, hmerges.eq_rows⟩
  · have hlisted : b ∈ s'.registry registry := by
      rw [hregistry, if_pos rfl]
      exact List.mem_append_right _ hb
    exact hvalid.registered hlisted
  · rw [← hbs]
    exact nodup_map_id_stage s staging
  · have hle := next_le_of_mem_stage (hbs ▸ hb)
    exact Nat.ne_of_gt (Nat.lt_of_lt_of_le (hlt c hc) hle)
  · rw [hregistry, if_pos rfl]
  · rw [hregistry, if_neg hname]
  · rw [hextension, extension_stage (hlt c hc)]

/-- A dataset can be installed exactly if the declarations of each name agree with the first of them,
a relation can be made of this one, and the tuples of all of them, one after another, can be added to
it. Then the relations are made and registered name by name. Declarations of other names in between
make no difference. -/
theorem install_iff_merges (hs : s.Reachable) (registry : String) (d : Dataset) :
    ((∃ bs s', s.install registry d = .ok (bs, s')) ↔
      ∀ name first later, Declaration.named d.relations name = first :: later →
        (∀ e ∈ later, e.arity = first.arity) ∧
        first.declared.Declarable ∧
        (∀ e ∈ later, e.properties = {} ∨ e.properties = first.properties) ∧
        ∃ x, first.declared.insertAll (.empty first.arity)
          (Declaration.tuples (first :: later)) = .ok x) ∧
    (∀ bs s', s.install registry d = .ok (bs, s') → s.Installs registry d bs s') ∧
    ∀ d' : Dataset, Declaration.names d'.relations = Declaration.names d.relations →
      (∀ name, Declaration.named d'.relations name = Declaration.named d.relations name) →
      ∀ result, s.install registry d' = .ok result ↔ s.install registry d = .ok result := by
  refine ⟨?_, fun bs s' h => hs.valid.installs h, fun d' hnames hnamed result => ?_⟩
  · constructor
    · rintro ⟨bs, s', h⟩ name first later hnamed
      obtain ⟨staging, hcollects, -⟩ := install_eq_ok_iff.mp h
      obtain ⟨x, hx⟩ := hcollects.mergeable name first later hnamed
      exact ⟨hx.arity, hx.declarable, hx.properties, x, hx.loads⟩
    · intro h
      have hmergeable : Mergeable d.relations := by
        intro name first later hnamed
        obtain ⟨harity, hdeclarable, hproperties, x, hloads⟩ := h name first later hnamed
        exact ⟨x, harity, hdeclarable, hproperties, hloads⟩
      obtain ⟨staging, hstaging⟩ := Declaration.exists_foldlM_of_mergeable hmergeable
      exact ⟨_, _, install_eq_ok_iff.mpr
        ⟨staging, Declaration.collects_of_foldlM hstaging, rfl⟩⟩
  · have hcollects : ∀ staging : Staging,
        staging.Collects d'.relations ↔ staging.Collects d.relations := by
      intro staging
      rw [Staging.collects_iff, Staging.collects_iff, hnames]
      simp only [ComesTo, hnamed]
    rw [install_eq_ok_iff, install_eq_ok_iff]
    simp only [hcollects]

/-- A dataset that declares its names again, in between each other, and one that is registered
already. -/
def kinshipAddition : Dataset where
  relations :=
    [{ name := "female", arity := 1, entries := [.bare (.text "janina")] },
     { name := "older", arity := 2, properties := { irreflexive := true },
       entries := [.row [.text "teresa", .text "piotr"]] },
     { name := "female", arity := 1, entries := [.row [.text "ania"], .bare (.text "janina")] },
     { name := "older", arity := 2,
       entries := [.row [.text "piotr", .text "ania"], .row [.text "teresa", .text "piotr"]] }]

theorem install_iff_merges_kinshipAddition :
    ∃ bs s', Session.kinship.store.install "main" kinshipAddition = .ok (bs, s') ∧
      Session.kinship.store.Installs "main" kinshipAddition bs s' ∧
      bs.map (fun b => (b.name, (s'.extension b).rows)) =
        [("female", [[.text "janina"], [.text "ania"]]),
          ("older", [[.text "teresa", .text "piotr"], [.text "piotr", .text "ania"]])] := by
  have h := install_iff_merges Session.reachable_kinship "main" kinshipAddition
  exact ⟨_, _, rfl, h.2.1 _ _ rfl, rfl⟩

end Store

end RelationAlgebra
