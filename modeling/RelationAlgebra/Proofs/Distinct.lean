import Mathlib.Data.List.Induction
import Mathlib.Data.List.Nodup

/-!
# Distinct elements

Output columns and rows are lists from which later repeats are left out. The elements of such a list
stand in the order of their first occurrence (`pairwise_eraseDups`). Repeats may be left out of a
part, before a filter or before a partial map: what remains in the end is the same.
-/

namespace RelationAlgebra

section EraseDups

variable {α β : Type} [BEq α] [LawfulBEq α]

/-- Leaving elements out keeps the order of the first occurrences of the others. -/
theorem idxOf_lt_idxOf_of_filter {p : α → Bool} {xs : List α} {y z : α} (hy : p y = true)
    (hz : p z = true) (h : (xs.filter p).idxOf y < (xs.filter p).idxOf z) :
    xs.idxOf y < xs.idxOf z := by
  induction xs with
  | nil => simp at h
  | cons x xs ih =>
    by_cases hx : p x = true
    · rw [List.filter_cons_of_pos hx] at h
      simp only [List.idxOf_cons] at h ⊢
      cases hxz : x == z with
      | true => simp [hxz] at h
      | false =>
        cases hxy : x == y with
        | true => simp
        | false =>
          simp only [hxz, hxy, cond_false, Nat.add_lt_add_iff_right] at h ⊢
          exact ih h
    · rw [List.filter_cons_of_neg hx] at h
      have hne : ∀ {w}, p w = true → (x == w) = false := fun hw =>
        beq_eq_false_iff_ne.mpr fun e => hx (e ▸ hw)
      simpa [List.idxOf_cons, hne hy, hne hz] using ih h

/-- What is kept stands in the order of the first occurrences. -/
theorem pairwise_eraseDups (xs : List α) :
    xs.eraseDups.Pairwise fun y z => xs.idxOf y < xs.idxOf z := by
  induction h : xs.length using Nat.strongRecOn generalizing xs with
  | ind n ih =>
    cases xs with
    | nil => simp
    | cons x xs =>
      rw [List.eraseDups_cons, List.pairwise_cons]
      -- after the first element come the distinct elements of a shorter list
      have hlt : (xs.filter fun y => !y == x).length < n := by
        have := List.length_filter_le (fun y => !y == x) xs
        simp only [List.length_cons] at h
        omega
      have hne : ∀ y ∈ (xs.filter fun y => !y == x).eraseDups, (!y == x) = true := by
        intro y hy
        rw [List.mem_eraseDups, List.mem_filter] at hy
        exact hy.2
      have hidx : ∀ y ∈ (xs.filter fun y => !y == x).eraseDups,
          (x :: xs).idxOf y = xs.idxOf y + 1 := by
        intro y hy
        have hxy : (x == y) = false := BEq.comm.trans (by simpa using hne y hy)
        rw [List.idxOf_cons, hxy, cond_false]
      refine ⟨fun y hy => by simp [hidx y hy], ?_⟩
      refine (ih _ hlt _ rfl).imp_of_mem fun {y z} hy hz hyz => ?_
      rw [hidx y hy, hidx z hz, Nat.add_lt_add_iff_right]
      exact idxOf_lt_idxOf_of_filter (hne y hy) (hne z hz) hyz

theorem nodup_eraseDups (xs : List α) : xs.eraseDups.Nodup :=
  (pairwise_eraseDups xs).imp fun {y z} hlt e => by simp [e] at hlt

theorem eraseDups_eq_self {xs : List α} (h : xs.Nodup) : xs.eraseDups = xs := by
  induction xs with
  | nil => rfl
  | cons x xs ih =>
    rw [List.nodup_cons] at h
    have hfilter : xs.filter (fun y => !y == x) = xs := by
      rw [List.filter_eq_self]
      intro y hy
      have hyx : y ≠ x := fun e => h.1 (e ▸ hy)
      simp [hyx]
    rw [List.eraseDups_cons, hfilter, ih h.2]

/-- One more element is dropped if it occurs before. -/
theorem eraseDups_concat [DecidableEq α] (xs : List α) (a : α) :
    (xs ++ [a]).eraseDups = if a ∈ xs then xs.eraseDups else xs.eraseDups ++ [a] := by
  rw [List.eraseDups_append]
  by_cases h : a ∈ xs <;> simp [List.removeAll, List.eraseDups_cons, h]

/-- A partial map over distinct elements gives the values that it gives over all elements. -/
theorem eraseDups_filterMap_eraseDups [BEq β] [LawfulBEq β] (f : α → Option β) (xs : List α) :
    (xs.eraseDups.filterMap f).eraseDups = (xs.filterMap f).eraseDups := by
  classical
  induction xs using List.reverseRecOn with
  | nil => rfl
  | append_singleton xs x ih =>
    rw [eraseDups_concat, List.filterMap_append]
    cases hf : f x with
    | none =>
      rw [List.filterMap_cons_none hf, List.filterMap_nil, List.append_nil, ← ih]
      by_cases hx : x ∈ xs
      · rw [if_pos hx]
      · rw [if_neg hx, List.filterMap_append, List.filterMap_cons_none hf, List.filterMap_nil,
          List.append_nil]
    | some y =>
      rw [List.filterMap_cons_some hf, List.filterMap_nil, eraseDups_concat, ← ih]
      by_cases hx : x ∈ xs
      · rw [if_pos hx, if_pos (List.mem_filterMap.mpr ⟨x, hx, hf⟩)]
      · have hmem : y ∈ xs.eraseDups.filterMap f ↔ y ∈ xs.filterMap f := by
          simp only [List.mem_filterMap, List.mem_eraseDups]
        rw [if_neg hx, List.filterMap_append, List.filterMap_cons_some hf, List.filterMap_nil,
          eraseDups_concat]
        by_cases hy : y ∈ xs.filterMap f
        · rw [if_pos hy, if_pos (hmem.mpr hy)]
        · rw [if_neg hy, if_neg (mt hmem.mp hy)]

/-- A filter and the dropping of repeats may change places. -/
theorem eraseDups_filter (p : α → Bool) (xs : List α) :
    (xs.filter p).eraseDups = xs.eraseDups.filter p := by
  have h := eraseDups_filterMap_eraseDups (Option.guard p) xs
  rw [List.filterMap_eq_filter, eraseDups_eq_self ((nodup_eraseDups xs).filter p)] at h
  exact h.symm

theorem eraseDups_append_eraseDups (xs ys : List α) :
    (xs.eraseDups ++ ys).eraseDups = (xs ++ ys).eraseDups := by
  have hremove : ys.removeAll xs.eraseDups = ys.removeAll xs := by
    refine List.filter_congr fun y _ => ?_
    have helem : xs.eraseDups.elem y = xs.elem y := by
      rw [Bool.eq_iff_iff, List.elem_iff, List.elem_iff, List.mem_eraseDups]
    rw [helem]
  rw [List.eraseDups_append, List.eraseDups_append, eraseDups_eq_self (nodup_eraseDups xs),
    hremove]

theorem append_eraseDups (xs ys : List α) :
    (xs ++ ys.eraseDups).eraseDups = (xs ++ ys).eraseDups := by
  have hremove : (ys.eraseDups.removeAll xs).eraseDups = (ys.removeAll xs).eraseDups := by
    rw [List.removeAll, List.removeAll, eraseDups_filter, eraseDups_filter,
      eraseDups_eq_self (nodup_eraseDups ys)]
  rw [List.eraseDups_append, List.eraseDups_append, hremove]

/-- Repeats in either part of an append may be dropped first. -/
theorem eraseDups_append_congr {xs xs' ys ys' : List α} (hx : xs.eraseDups = xs'.eraseDups)
    (hy : ys.eraseDups = ys'.eraseDups) : (xs ++ ys).eraseDups = (xs' ++ ys').eraseDups := by
  rw [← eraseDups_append_eraseDups, ← append_eraseDups, hx, hy, append_eraseDups,
    eraseDups_append_eraseDups]

end EraseDups

end RelationAlgebra
