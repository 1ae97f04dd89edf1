/-!
# Association lists

Finite maps as lists of keys and values, read with `List.lookup` and written with `set`. A key keeps
the place that it had when it was first written.
-/

namespace RelationAlgebra.Association

variable {κ α β : Type} [BEq κ]

/-- The map with `value` for `key`. -/
def set (key : κ) (value : α) : List (κ × α) → List (κ × α)
  | [] => [(key, value)]
  | entry :: rest => if key == entry.1 then (key, value) :: rest else entry :: set key value rest

theorem lookup_set [LawfulBEq κ] (key : κ) (value : α) (map : List (κ × α)) (k : κ) :
    (set key value map).lookup k = if k == key then some value else map.lookup k := by
  induction map with
  | nil => cases h : k == key <;> simp [set, List.lookup_cons, h]
  | cons entry rest ih =>
    obtain ⟨k', v'⟩ := entry
    by_cases hk : key = k'
    · subst hk
      cases h : k == key <;> simp [set, List.lookup_cons, h]
    · cases h : k == k' with
      | false => simp [set, hk, List.lookup_cons, h, ih]
      | true =>
        have hne : (k == key) = false := by
          rw [eq_of_beq h]; simpa using fun e => hk e.symm
        simp [set, hk, List.lookup_cons, h, hne]

theorem set_set [LawfulBEq κ] (key : κ) (value value' : α) (map : List (κ × α)) :
    set key value (set key value' map) = set key value map := by
  induction map with
  | nil => simp [set]
  | cons entry rest ih =>
    cases h : key == entry.1 <;> simp [set, h, ih]

/-- Writing the value that a key has already changes nothing. -/
theorem set_of_lookup [LawfulBEq κ] {key : κ} {value : α} {map : List (κ × α)}
    (h : map.lookup key = some value) : set key value map = map := by
  induction map with
  | nil => cases h
  | cons entry rest ih =>
    obtain ⟨k, v⟩ := entry
    by_cases hk : key = k
    · subst hk
      have hv : v = value := by simpa using h
      simp [set, hv]
    · rw [List.lookup_cons, beq_eq_false_iff_ne.mpr hk] at h
      simp [set, hk, ih h]

/-- The order of two writes does not matter if one of the keys is in the map already. -/
theorem set_comm [LawfulBEq κ] {key key' : κ} {old : α} {map : List (κ × α)} (hne : key ≠ key')
    (hkey : map.lookup key = some old) (value value' : α) :
    set key value (set key' value' map) = set key' value' (set key value map) := by
  induction map with
  | nil => cases hkey
  | cons entry rest ih =>
    obtain ⟨k, v⟩ := entry
    by_cases h : key = k
    · subst h
      simp [set, hne.symm]
    · have hrest : rest.lookup key = some old := by
        rwa [List.lookup_cons, beq_eq_false_iff_ne.mpr h] at hkey
      by_cases h' : key' = k
      · subst h'
        simp [set, h]
      · simp [set, h, h', ih hrest]

theorem mem_set {key : κ} {value : α} {map : List (κ × α)} {entry : κ × α}
    (h : entry ∈ set key value map) : entry ∈ map ∨ entry.2 = value := by
  induction map with
  | nil => exact Or.inr (congrArg Prod.snd (List.mem_singleton.mp h))
  | cons first rest ih =>
    rw [set] at h
    split at h
    · rcases List.mem_cons.mp h with rfl | h
      · exact Or.inr rfl
      · exact Or.inl (List.mem_cons_of_mem _ h)
    · rcases List.mem_cons.mp h with rfl | h
      · exact Or.inl List.mem_cons_self
      · exact (ih h).imp_left (List.mem_cons_of_mem _)

/-- The map with a function applied to its values. -/
def mapValues (f : α → β) (map : List (κ × α)) : List (κ × β) := map.map fun e => (e.1, f e.2)

theorem lookup_mapValues (f : α → β) (map : List (κ × α)) (k : κ) :
    (mapValues f map).lookup k = (map.lookup k).map f := by
  induction map with
  | nil => rfl
  | cons entry map ih =>
    rw [mapValues] at ih ⊢
    rw [List.map_cons, List.lookup_cons, List.lookup_cons]
    cases h : k == entry.1 with
    | true => simp
    | false => simpa using ih

theorem set_mapValues (f : α → β) (key : κ) (value : α) (map : List (κ × α)) :
    set key (f value) (mapValues f map) = mapValues f (set key value map) := by
  induction map with
  | nil => rfl
  | cons entry map ih =>
    rw [mapValues] at ih ⊢
    rw [List.map_cons, set, set]
    cases h : key == entry.1 with
    | true => simp [mapValues]
    | false => simp [mapValues, ih]

end RelationAlgebra.Association
