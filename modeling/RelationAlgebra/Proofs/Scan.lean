import RelationAlgebra.Proofs.History

/-!
# Scans

One call after another, a scan gives the rows that it has not yielded yet, in order, and then
nothing (`Scan.yields_eq`). A scan of a session is moved on by the calls for its next row and by
nothing else, so the answers to these calls do not depend on what happens between them, succeeds or
fails (`Session.scanned_eq`).
-/

namespace RelationAlgebra

namespace Scan

/-- The rows that a scan is still to yield. -/
def remaining (c : Scan) : List Tuple := c.pending.filter fun t => t[c.position]? == some c.value

/-- What a scan gives at the next `calls` calls. -/
def yields (c : Scan) : (calls : Nat) → List (Option Tuple)
  | 0 => []
  | calls + 1 => c.next.1 :: c.next.2.yields calls

/-- A scan is to yield the rows that have the value, in their order. -/
theorem remaining_start (x : Extension) (position : Nat) (value : Atom) :
    (start x position value).remaining = x.valuesAt position value := rfl

theorem next_cons_of_selects {t : Tuple} {pending : List Tuple} {position : Nat} {value : Atom}
    (h : t[position]? = some value) :
    next ⟨t :: pending, position, value⟩ = (some t, ⟨pending, position, value⟩) := by
  simp [next, selects, h]

/-- Rows without the value are passed over. -/
theorem next_cons_of_not_selects {t : Tuple} {pending : List Tuple} {position : Nat} {value : Atom}
    (h : t[position]? ≠ some value) :
    next ⟨t :: pending, position, value⟩ = next ⟨pending, position, value⟩ := by
  simp [next, selects, h]

/-- One call gives the first of the rows to come and leaves the others. -/
theorem next_spec (c : Scan) :
    c.next.1 = c.remaining.head? ∧ c.next.2.remaining = c.remaining.tail := by
  obtain ⟨pending, position, value⟩ := c
  induction pending with
  | nil => exact ⟨rfl, rfl⟩
  | cons t pending ih =>
    by_cases h : t[position]? = some value
    · have hrows : remaining ⟨t :: pending, position, value⟩ =
          t :: remaining ⟨pending, position, value⟩ := by
        simp [remaining, h]
      rw [next_cons_of_selects h, hrows]
      exact ⟨rfl, rfl⟩
    · have hrows : remaining ⟨t :: pending, position, value⟩ =
          remaining ⟨pending, position, value⟩ := by
        simp [remaining, h]
      rw [next_cons_of_not_selects h, hrows]
      exact ih

/-- Call `i` gives row `i` of those to come, and nothing when there are no more. -/
theorem yields_eq (c : Scan) (calls : Nat) :
    c.yields calls = (List.range calls).map fun i => c.remaining[i]? := by
  induction calls generalizing c with
  | zero => rfl
  | succ calls ih =>
    obtain ⟨hfirst, hrest⟩ := c.next_spec
    rw [yields, ih, hrest, hfirst, List.range_succ_eq_map, List.map_cons, List.map_map,
      List.head?_eq_getElem?]
    refine congrArg _ (List.map_congr_left fun i _ => ?_)
    exact List.getElem?_tail

end Scan

/-- Whether an event is a call for the next row of the scan that has a name. -/
def Event.isNext (n : String) (e : Event) : Bool :=
  match e.request with
  | .act (.next scan) _ => scan == n
  | _ => false

theorem Event.exists_of_isNext {n : String} {e : Event} (h : e.isNext n = true) :
    ∃ name, e.request = .act (.next n) name := by
  unfold Event.isNext at h
  split at h
  next scan name hrequest => exact ⟨name, by rw [hrequest, eq_of_beq h]⟩
  next => cases h

theorem Event.action?_ne_next {n : String} {e : Event} (h : e.isNext n ≠ true) :
    e.request.action? ≠ some (.next n) := by
  intro haction
  rcases Request.cases_of_action? haction with ⟨name, hrequest⟩ |
    ⟨registry, text, dataset, -, hnext⟩
  · rw [Event.isNext, hrequest] at h
    exact h (beq_self_eq_true n)
  · cases hnext

namespace Session

variable {s : Session} {e : Event} {es : List Event} {n q : String} {c : Scan} {r : Relation}

/-- The answer to the request of an event. -/
def reply (s : Session) (e : Event) : Except SessionError Answer :=
  if e.inPlace then (s.perform e.request).1 else (s.step e.request).1

/-- The answers to the calls for the next row of a scan in the course of events. -/
def scanned (s : Session) (n : String) : List Event → List (Except SessionError Answer)
  | [] => []
  | e :: es =>
    if e.isNext n then s.reply e :: (s.after e).scanned n es else (s.after e).scanned n es

theorem scan_eq_ok_iff : s.scan n = .ok c ↔ s.handles.lookup n = some (.scan c) := by
  unfold Session.scan
  split
  next d h => simp [h]
  next hne =>
    constructor
    · intro h
      cases h
    · exact fun h => absurd h (hne c)

theorem scan_keep_self (s : Session) (n : String) (c : Scan) :
    (s.keep (some n) (.scan c)).scan n = .ok c := by
  rw [scan_eq_ok_iff]
  simp [keep, Association.lookup_set]

/-- A scan is made of the rows that the relation has at the moment. -/
theorem scan_of_step (h : s.relation q = .ok r) (position : Nat) (value : Atom) (n : String) :
    (s.step (.act (.scan q position value) (some n))).2.scan n =
      .ok (.start (s.store.rows r) position value) := by
  have hact : s.act (some n) (.scan q position value) =
      .ok (.done, s.keep (some n) (.scan (.start (s.store.rows r) position value))) := by
    rw [act, h]
    rfl
  rw [step, attempt, hact]
  exact scan_keep_self s n _

/-! ## One event -/

theorem step_next (h : s.scan n = .ok c) (name : Option String) :
    s.step (.act (.next n) name) =
      (.ok (.tuple? c.next.1), s.keep (some n) (.scan c.next.2)) := by
  have hact : s.act name (.next n) =
      .ok (.tuple? c.next.1, s.keep (some n) (.scan c.next.2)) := by
    rw [act, h]
    rfl
  rw [step, attempt, hact]

/-- A call for the next row is answered by the scan and moves it on. -/
theorem next_event (h : s.scan n = .ok c) (he : e.isNext n = true) :
    s.reply e = .ok (.tuple? c.next.1) ∧ (s.after e).scan n = .ok c.next.2 := by
  obtain ⟨name, hrequest⟩ := Event.exists_of_isNext he
  have hstep := step_next h name
  -- a call writes to no store, so it is the same in place
  have hperform : s.perform (.act (.next n) name) = s.step (.act (.next n) name) := rfl
  rw [reply, after, hrequest, hperform, hstep, ite_self, ite_self]
  exact ⟨rfl, scan_keep_self s n c.next.2⟩

/-- Whatever else happens, a scan stays as it is until its name is given again. -/
theorem scan_after (h : s.scan n = .ok c) (hn : e.request.name? ≠ some n)
    (he : e.isNext n ≠ true) : (s.after e).scan n = .ok c := by
  rw [scan_eq_ok_iff] at h ⊢
  rw [lookup_after hn fun _ _ => Event.action?_ne_next he, h]

/-! ## Histories -/

/-- The calls for the next row of a scan are answered as if nothing happened between them. -/
theorem scanned_eq (h : s.scan n = .ok c)
    (hes : ∀ e ∈ es, e.isNext n = true ∨ e.request.name? ≠ some n) :
    s.scanned n es =
      (c.yields (es.countP (Event.isNext n))).map fun t => .ok (.tuple? t) := by
  induction es generalizing s c with
  | nil => rfl
  | cons e es ih =>
    rw [List.forall_mem_cons] at hes
    obtain ⟨hhead, htail⟩ := hes
    rw [scanned]
    by_cases he : e.isNext n = true
    · obtain ⟨hreply, hscan⟩ := next_event h he
      rw [if_pos he, List.countP_cons_of_pos he, Scan.yields, List.map_cons, hreply, ih hscan htail]
    · have hscan := scan_after h (hhead.resolve_left he) he
      rw [if_neg he, List.countP_cons_of_neg he, ih hscan htail]

end Session

end RelationAlgebra
