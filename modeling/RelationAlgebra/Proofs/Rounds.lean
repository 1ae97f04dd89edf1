import RelationAlgebra.Proofs.Closure
import RelationAlgebra.Proofs.Extension

/-!
# Rounds of the closure search

The search for a chain is given one round for every second component. Here it is told without a
limit: each round removes the oldest atom from the queue, and the search ends when this is the goal
or when the queue is empty (`Extension.Ends`). The queue grows and shrinks on the way, but only
second components enter it, each once, so every round leaves one of them less. The search ends
within the rounds that it is given, and with the same answer (`Extension.search_ends`).
-/

namespace RelationAlgebra.Extension

variable {x : Extension} {f : Frontier} {a goal : Atom} {removed : List Atom} {answer : Bool}

/-- Whether a search for `goal` from `a` stands at a frontier at the beginning of a round, after it
has removed the listed atoms from its queue. Only pairs are searched. -/
inductive Stands (x : Extension) (a goal : Atom) : List Atom → Frontier → Prop where
  | opening (harity : x.arity = 2) : x.Stands a goal [] (x.opening a)
  | round {removed queue : List Atom} {f : Frontier} {b : Atom} (h : x.Stands a goal removed f)
    (hq : f.queue = b :: queue) (hb : b ≠ goal) : x.Stands a goal (removed ++ [b]) (x.expand f)

/-- Whether a search for `goal` from `a` ends with an answer, after it has removed the listed atoms
from its queue. -/
inductive Ends (x : Extension) (a goal : Atom) : List Atom → Bool → Prop where
  | unsearched (harity : x.arity ≠ 2) : x.Ends a goal [] false
  | exhausted {removed : List Atom} {f : Frontier} (h : x.Stands a goal removed f)
    (hq : f.queue = []) : x.Ends a goal removed false
  | found {removed queue : List Atom} {f : Frontier} (h : x.Stands a goal removed f)
    (hq : f.queue = goal :: queue) : x.Ends a goal (removed ++ [goal]) true

/-! ## At the beginning of a round -/

theorem Stands.arity (h : x.Stands a goal removed f) : x.arity = 2 := by
  induction h with
  | opening harity => exact harity
  | round _ _ _ ih => exact ih

theorem Stands.searching (hx : x.Valid) (h : x.Stands a goal removed f) :
    x.Searching a removed f := by
  induction h with
  | opening harity => exact searching_opening (hx.length_two harity) a
  | round h hq _ ih => exact ih.expand (hx.length_two h.arity) hq

/-- A limited search passes the same frontiers, each with one round less to go. -/
theorem Stands.finds_add (h : x.Stands a goal removed f) (rounds : Nat) :
    x.finds goal (removed.length + rounds) (x.opening a) = x.finds goal rounds f := by
  induction h generalizing rounds with
  | opening => rw [List.length_nil, Nat.zero_add]
  | @round removed _ f b _ hq hb ih =>
    calc x.finds goal ((removed ++ [b]).length + rounds) (x.opening a)
        = x.finds goal (removed.length + (rounds + 1)) (x.opening a) := by
          rw [List.length_append, List.length_singleton, Nat.add_assoc, Nat.add_comm 1]
      _ = x.finds goal (rounds + 1) f := ih (rounds + 1)
      _ = x.finds goal rounds (x.expand f) := by simp [finds, hq, hb]

/-! ## At the end -/

/-- From every round on, the search ends: each round removes one of the second components that are
left. -/
theorem Stands.exists_ends {rounds : Nat} (hx : x.Valid) (h : x.Stands a goal removed f)
    (hrounds : x.targets.length ≤ removed.length + rounds) :
    ∃ removed answer, x.Ends a goal removed answer := by
  induction rounds generalizing f removed with
  | zero =>
    have hlen := (h.searching hx).length_le
    have hq : f.queue = [] := List.eq_nil_of_length_eq_zero (by omega)
    exact ⟨removed, false, .exhausted h hq⟩
  | succ rounds ih =>
    cases hq : f.queue with
    | nil => exact ⟨removed, false, .exhausted h hq⟩
    | cons b queue =>
      by_cases hb : b = goal
      · exact ⟨removed ++ [goal], true, .found h (hb ▸ hq)⟩
      · refine ih (h.round hq hb) ?_
        rw [List.length_append, List.length_singleton]
        omega

theorem exists_ends (hx : x.Valid) (a goal : Atom) :
    ∃ removed answer, x.Ends a goal removed answer := by
  by_cases harity : x.arity = 2
  · exact Stands.exists_ends hx (.opening harity) (Nat.le_add_left _ _)
  · exact ⟨[], false, .unsearched harity⟩

/-- What a search has removed in the end is a part of what it ever queued. -/
theorem Ends.exists_sublist (hx : x.Valid) (harity : x.arity = 2)
    (h : x.Ends a goal removed answer) :
    ∃ before f, x.Searching a before f ∧ removed.Sublist f.visited := by
  cases h with
  | unsearched hno => exact absurd harity hno
  | exhausted h hq =>
    have hs := h.searching hx
    refine ⟨_, _, hs, ?_⟩
    rw [hs.visited, hq, List.append_nil]
  | @found before queue f h hq =>
    have hs := h.searching hx
    refine ⟨before, f, hs, ?_⟩
    rw [hs.visited, hq]
    exact ((List.nil_sublist queue).cons_cons goal).append_left before

theorem Ends.bounded (hx : x.Valid) (h : x.Ends a goal removed answer) :
    removed.Nodup ∧ (∀ b ∈ removed, ∃ c, x.Edge c b) ∧ removed.length ≤ x.targets.length := by
  by_cases harity : x.arity = 2
  · obtain ⟨_, f, hs, hsub⟩ := h.exists_sublist hx harity
    exact ⟨hs.nodup.sublist hsub, fun b hb => hs.exists_edge (hsub.subset hb),
      Nat.le_trans hsub.length_le hs.length_visited_le⟩
  · cases h with
    | unsearched => simp
    | exhausted h | found h => exact absurd h.arity harity

/-- A limited search gives the answer as soon as it has the rounds that the search takes. -/
theorem Ends.finds_eq {rounds : Nat} (h : x.Ends a goal removed answer) (harity : x.arity = 2)
    (hrounds : removed.length ≤ rounds) : x.finds goal rounds (x.opening a) = answer := by
  obtain ⟨more, rfl⟩ := Nat.exists_eq_add_of_le hrounds
  cases h with
  | unsearched hno => exact absurd harity hno
  | exhausted h hq =>
    rw [h.finds_add]
    cases more <;> simp [finds, hq]
  | found h hq =>
    rw [List.length_append, List.length_singleton, Nat.add_assoc, h.finds_add, Nat.add_comm 1]
    simp [finds, hq]

theorem Ends.reachable_eq (hx : x.Valid) (h : x.Ends a goal removed answer) :
    x.reachable a goal = answer := by
  by_cases harity : x.arity = 2
  · obtain ⟨-, -, hlen⟩ := h.bounded hx
    rw [reachable, harity, beq_self_eq_true, Bool.true_and, h.finds_eq harity hlen]
  · cases h with
    | unsearched => exact reachable_of_arity_ne harity a goal
    | exhausted h | found h => exact absurd h.arity harity

/-- Every search ends. It removes no atom from its queue twice and only second components of pairs,
so it ends after at most as many rounds as there are distinct second components, whatever cycles the
pairs contain; any limit from its rounds on leaves its answer as it is, in particular that of
`reachable`. At the beginning of every round, what was ever queued is what was removed followed by
what is queued still; all of it is at the end of a chain of pairs from `a`, and every successor of
what was removed is among it. -/
theorem search_ends (hx : x.Valid) (a goal : Atom) :
    (∃ removed answer, x.Ends a goal removed answer) ∧
      (∀ removed answer, x.Ends a goal removed answer →
        removed.Nodup ∧ (∀ b ∈ removed, ∃ c, x.Edge c b) ∧ removed.length ≤ x.targets.length ∧
          (x.arity = 2 → ∀ rounds, removed.length ≤ rounds →
            x.finds goal rounds (x.opening a) = answer) ∧
          x.reachable a goal = answer) ∧
      ∀ removed f, x.Stands a goal removed f →
        f.visited = removed ++ f.queue ∧ f.visited.Nodup ∧ f.visited.length ≤ x.targets.length ∧
          (∀ b ∈ f.visited, Relation.TransGen x.Edge a b) ∧
          ∀ b ∈ removed, ∀ c, x.Edge b c → c ∈ f.visited := by
  refine ⟨exists_ends hx a goal, fun removed answer h => ?_, fun removed f h => ?_⟩
  · obtain ⟨hnodup, hedge, hlen⟩ := h.bounded hx
    exact ⟨hnodup, hedge, hlen, fun harity _ => h.finds_eq harity, h.reachable_eq hx⟩
  · have hs := h.searching hx
    exact ⟨hs.visited, hs.nodup, hs.length_visited_le, hs.sound, hs.expanded⟩

/-- Pairs with a circle, a second way to one atom, and an atom that leads to itself. -/
def roundabout : Extension :=
  ⟨2, [[.int 1, .int 2], [.int 2, .int 1], [.int 2, .int 3], [.int 1, .int 3], [.int 3, .int 3]]⟩

/-- Each of the three second components is removed before the search gives up. -/
theorem search_ends_roundabout :
    roundabout.Valid ∧ roundabout.targets.length = 3 ∧
      roundabout.Ends (.int 1) (.int 4) [.int 2, .int 3, .int 1] false ∧
      ∀ removed answer, roundabout.Ends (.int 1) (.int 4) removed answer →
        removed.Nodup ∧ removed.length ≤ 3 ∧ answer = false := by
  have hvalid : roundabout.Valid := ⟨by decide, by decide⟩
  have hopening : roundabout.Stands (.int 1) (.int 4) [] ⟨[.int 2, .int 3], [.int 2, .int 3]⟩ :=
    .opening rfl
  have hfirst : roundabout.Stands (.int 1) (.int 4) [.int 2]
      ⟨[.int 2, .int 3, .int 1], [.int 3, .int 1]⟩ := hopening.round rfl (by decide)
  have hsecond : roundabout.Stands (.int 1) (.int 4) [.int 2, .int 3]
      ⟨[.int 2, .int 3, .int 1], [.int 1]⟩ := hfirst.round rfl (by decide)
  have hthird : roundabout.Stands (.int 1) (.int 4) [.int 2, .int 3, .int 1]
      ⟨[.int 2, .int 3, .int 1], []⟩ := hsecond.round rfl (by decide)
  refine ⟨hvalid, by decide, .exhausted hthird rfl, fun removed answer h => ?_⟩
  obtain ⟨-, hbounded, -⟩ := search_ends hvalid (.int 1) (.int 4)
  obtain ⟨hnodup, -, hlen, -, hanswer⟩ := hbounded removed answer h
  exact ⟨hnodup, hlen, hanswer.symm.trans (by decide)⟩

end RelationAlgebra.Extension
