import Mathlib.Data.List.Perm.Subperm
import Mathlib.Logic.Relation
import RelationAlgebra.Extension.Closure

/-!
# What the closure search finds

The breadth-first search finds an atom exactly if a non-empty chain of stored pairs leads to it
(`Extension.reachable_iff`), whatever cycles the pairs contain. The search keeps one invariant
(`Extension.Searching`): what was queued is what was removed from the queue followed by what is still
in it, without repeats; all of it is at the end of a chain; and the successors of what was removed
are queued. An atom is queued only as a second component, so the rounds of the search suffice.
-/

namespace RelationAlgebra

namespace Frontier

variable {f : Frontier} {a b : Atom} {atoms : List Atom}

theorem mem_visited_visit : b ∈ (f.visit a).visited ↔ b ∈ f.visited ∨ b = a := by
  unfold visit
  split
  next h =>
    have ha : a ∈ f.visited := by simpa using h
    exact ⟨Or.inl, fun hb => hb.elim id fun e => e ▸ ha⟩
  next => simp

theorem mem_visited_visitAll : b ∈ (f.visitAll atoms).visited ↔ b ∈ f.visited ∨ b ∈ atoms := by
  unfold visitAll
  induction atoms generalizing f with
  | nil => simp
  | cons a atoms ih => rw [List.foldl_cons, ih, mem_visited_visit, List.mem_cons, or_assoc]

/-- Whether the listed atoms are all that a search has removed from its queue, none of them twice
and none of them queued again. -/
structure Removed (f : Frontier) (removed : List Atom) : Prop where
  visited : f.visited = removed ++ f.queue
  nodup : f.visited.Nodup

/-- An atom is put into the queue just when it is first visited, so none is removed twice. -/
theorem Removed.visit {removed : List Atom} (h : f.Removed removed) (a : Atom) :
    (f.visit a).Removed removed := by
  unfold Frontier.visit
  split
  next => exact h
  next ha =>
    have ha : a ∉ f.visited := by simpa using ha
    refine ⟨by simp [h.visited], ?_⟩
    show (f.visited ++ [a]).Nodup
    rw [List.nodup_append]
    refine ⟨h.nodup, by simp, fun b hb c hc => ?_⟩
    rw [List.mem_singleton.mp hc]
    rintro rfl
    exact ha hb

theorem Removed.visitAll {removed : List Atom} (h : f.Removed removed) (atoms : List Atom) :
    (f.visitAll atoms).Removed removed := by
  unfold Frontier.visitAll
  induction atoms generalizing f with
  | nil => exact h
  | cons a atoms ih => exact ih (h.visit a)

end Frontier

namespace Extension

variable {x : Extension} {f : Frontier} {a b c goal : Atom} {removed queue : List Atom}

/-- Whether a stored pair leads from one atom to another. -/
def Edge (x : Extension) (a b : Atom) : Prop := [a, b] ∈ x.rows

theorem Edge.mem_targets (h : x.Edge a b) : b ∈ x.targets := by
  rw [targets, List.mem_eraseDups, List.mem_filterMap]
  exact ⟨[a, b], h, rfl⟩

theorem mem_successors (hx : ∀ t ∈ x.rows, t.length = 2) : b ∈ x.successors a ↔ x.Edge a b := by
  simp only [successors, valuesAt, List.mem_filterMap, List.mem_filter, beq_iff_eq]
  constructor
  · rintro ⟨t, ⟨ht, ha⟩, hb⟩
    obtain ⟨c, d, rfl⟩ := List.length_eq_two.mp (hx t ht)
    have hca : c = a := by simpa using ha
    have hdb : d = b := by simpa using hb
    exact hca ▸ hdb ▸ ht
  · intro h
    exact ⟨[a, b], ⟨h, rfl⟩, rfl⟩

/-- What the search from `a` keeps, when it has removed the listed atoms from its queue. -/
structure Searching (x : Extension) (a : Atom) (removed : List Atom) (f : Frontier) : Prop
    extends f.Removed removed where
  sound : ∀ b ∈ f.visited, Relation.TransGen x.Edge a b
  opened : ∀ b, x.Edge a b → b ∈ f.visited
  expanded : ∀ b ∈ removed, ∀ c, x.Edge b c → c ∈ f.visited

/-- The search opens with the successors of its start, all of them reached by one edge. -/
theorem searching_opening (hx : ∀ t ∈ x.rows, t.length = 2) (a : Atom) :
    x.Searching a [] (x.opening a) := by
  have hmem : ∀ b, b ∈ (x.opening a).visited ↔ x.Edge a b := by
    intro b
    rw [opening, Frontier.mem_visited_visitAll, mem_successors hx]
    simp [Frontier.empty]
  have hempty : Frontier.empty.Removed [] := ⟨rfl, List.nodup_nil⟩
  refine ⟨hempty.visitAll _, fun b hb => ?_, fun b hb => (hmem b).mpr hb, by simp⟩
  exact .single ((hmem b).mp hb)

theorem Searching.mem_visited_of_queue (h : x.Searching a removed f) (hb : b ∈ f.queue) :
    b ∈ f.visited := by
  rw [h.visited]
  exact List.mem_append_right _ hb

/-- One round moves the oldest atom of the queue to the removed ones and keeps the invariant. -/
theorem Searching.expand (hx : ∀ t ∈ x.rows, t.length = 2) (h : x.Searching a removed f)
    (hq : f.queue = b :: queue) : x.Searching a (removed ++ [b]) (x.expand f) := by
  have hf : x.expand f = ({ f with queue } : Frontier).visitAll (x.successors b) := by
    simp [Extension.expand, hq]
  have hmem : ∀ c, c ∈ (x.expand f).visited ↔ c ∈ f.visited ∨ x.Edge b c := by
    intro c
    rw [hf, Frontier.mem_visited_visitAll, mem_successors hx]
  have hb : b ∈ f.visited := h.mem_visited_of_queue (hq ▸ List.mem_cons_self)
  have hremoved : ({ f with queue } : Frontier).Removed (removed ++ [b]) := by
    refine ⟨?_, h.nodup⟩
    show f.visited = removed ++ [b] ++ queue
    rw [h.visited, hq, List.append_cons]
  refine ⟨hf ▸ hremoved.visitAll _, fun c hc => ?_,
    fun c hc => (hmem c).mpr (Or.inl (h.opened c hc)), fun c hc d hd => ?_⟩
  · rcases (hmem c).mp hc with hc | hc
    · exact h.sound c hc
    · exact .tail (h.sound b hb) hc
  · rw [hmem]
    rcases List.mem_append.mp hc with hc | hc
    · exact Or.inl (h.expanded c hc d hd)
    · exact Or.inr (List.mem_singleton.mp hc ▸ hd)

/-- Whatever was visited is the end of an edge, hence among the targets. -/
theorem Searching.exists_edge (h : x.Searching a removed f) (hb : b ∈ f.visited) :
    ∃ c, x.Edge c b := by
  obtain ⟨c, -, hc⟩ := Relation.TransGen.tail'_iff.mp (h.sound b hb)
  exact ⟨c, hc⟩

/-- Only second components are ever queued, each once. -/
theorem Searching.length_visited_le (h : x.Searching a removed f) :
    f.visited.length ≤ x.targets.length := by
  refine h.nodup.length_le_of_subset fun b hb => ?_
  obtain ⟨c, hc⟩ := h.exists_edge hb
  exact hc.mem_targets

/-- What was removed and what is queued are distinct targets together. -/
theorem Searching.length_le (h : x.Searching a removed f) :
    removed.length + f.queue.length ≤ x.targets.length := by
  rw [← List.length_append, ← h.visited]
  exact h.length_visited_le

/-- When the queue is empty, all that a chain leads to has been removed from it. -/
theorem Searching.mem_removed (h : x.Searching a removed f) (hq : f.queue = [])
    (hab : Relation.TransGen x.Edge a b) : b ∈ removed := by
  have hvisited : f.visited = removed := by rw [h.visited, hq, List.append_nil]
  -- with nothing left in the queue, the visited atoms are closed under stored pairs
  rw [← hvisited]
  induction hab with
  | single hb => exact h.opened _ hb
  | tail _ hbc ih => exact h.expanded _ (hvisited ▸ ih) _ hbc

/-- A search that has not come to the goal yet, and has rounds left for all second components,
finds the goal exactly if a chain leads to it. -/
theorem Searching.finds_iff {rounds : Nat} (hx : ∀ t ∈ x.rows, t.length = 2)
    (h : x.Searching a removed f) (hgoal : goal ∉ removed)
    (hrounds : x.targets.length ≤ removed.length + rounds) :
    x.finds goal rounds f = true ↔ Relation.TransGen x.Edge a goal := by
  -- each round removes one atom, and never one that is no second component
  induction rounds generalizing f removed with
  | zero =>
    have hq : f.queue = [] := by
      have := h.length_le
      exact List.eq_nil_of_length_eq_zero (by omega)
    have hno : ¬ Relation.TransGen x.Edge a goal := fun hab => hgoal (h.mem_removed hq hab)
    simp [finds, hno]
  | succ rounds ih =>
    cases hq : f.queue with
    | nil =>
      have hno : ¬ Relation.TransGen x.Edge a goal := fun hab => hgoal (h.mem_removed hq hab)
      simp [finds, hq, hno]
    | cons b queue =>
      simp only [finds, hq, Bool.or_eq_true, beq_iff_eq]
      by_cases hb : b = goal
      · subst hb
        have hchain := h.sound b (h.mem_visited_of_queue (hq ▸ List.mem_cons_self))
        simp [hchain]
      · have hgoal' : goal ∉ removed ++ [b] := by
          rw [List.mem_append, List.mem_singleton, not_or]
          exact ⟨hgoal, fun e => hb e.symm⟩
        have hrounds' : x.targets.length ≤ (removed ++ [b]).length + rounds := by
          rw [List.length_append, List.length_singleton]
          omega
        rw [ih (h.expand hx hq) hgoal' hrounds']
        simp [hb]

theorem reachable_of_arity_ne (h : x.arity ≠ 2) (a b : Atom) : x.reachable a b = false := by
  simp [reachable, h]

/-- Over pairs, the search finds what a non-empty chain of stored pairs leads to. -/
theorem reachable_iff (harity : x.arity = 2) (hx : ∀ t ∈ x.rows, t.length = 2) :
    x.reachable a b = true ↔ Relation.TransGen x.Edge a b := by
  rw [reachable, harity, beq_self_eq_true, Bool.true_and]
  exact (searching_opening hx a).finds_iff hx (by simp) (by simp)

end Extension

end RelationAlgebra
