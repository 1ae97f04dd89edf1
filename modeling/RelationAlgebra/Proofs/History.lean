import RelationAlgebra.Proofs.Arity
import RelationAlgebra.Proofs.Declared
import RelationAlgebra.Proofs.Growth
import RelationAlgebra.Proofs.Installation

/-!
# Histories

What the rows of a stored relation are after any history: the tuples that were admitted to it, in the
order in which they were admitted, each where it came first (`Session.rows_replay`). Hence earlier
rows are an initial segment of later ones. Requests may be performed in place, and may fail with
rows left behind.
-/

namespace RelationAlgebra

/-! ## Events -/

/-- Something that happens to a session: a request, performed in place or not. -/
structure Event where
  request : Request
  inPlace : Bool

namespace Session

variable {s s' : Session} {name : Option String} {action : Action} {b : Base} {store : Store}
  {e : Event} {es : List Event} {n : String} {x : Extension}

/-- The session after an event. -/
def after (s : Session) (e : Event) : Session :=
  if e.inPlace then (s.perform e.request).2 else (s.step e.request).2

/-- The session after events, one after another. -/
def replay (s : Session) (es : List Event) : Session := es.foldl Session.after s

/-- The tuples that an action admits to a stored relation on the way to a store. -/
def adds (s : Session) (b : Base) (store : Store) : Action → List Tuple
  | .addAll relation tuples =>
    match s.relation relation with
    | .ok r => if r.id = b.id then tuples else []
    | .error _ => []
  | .install _ d =>
    if s.store.next ≤ b.id ∧ b.id < store.next then
      Declaration.tuples (Declaration.named d.relations b.name)
    else []
  | _ => []

/-- The tuples that a request admits to a stored relation: none if it fails. -/
def admits (s : Session) (b : Base) (request : Request) : List Tuple :=
  match s.step request, request.action? with
  | (.ok _, s'), some action => s.adds b s'.store action
  | _, _ => []

/-- The tuples that are admitted to a stored relation in the course of events. -/
def admitted (s : Session) (b : Base) : List Event → List Tuple
  | [] => []
  | e :: es => s.admits b e.request ++ (s.after e).admitted b es

/-! ## One event -/

/-- An event does what its request does otherwise, or fails and leaves staged rows behind. -/
theorem after_eq (s : Session) (e : Event) :
    s.after e = (s.step e.request).2 ∨
      ∃ error staging, Staging.Valid staging ∧ s.step e.request = (.error error, s) ∧
        s.after e = { s with store := (s.store.stage staging).2 } := by
  unfold after
  split
  · rcases perform_cases s e.request with ⟨answer, -, heq⟩ | ⟨error, staging, h, hstep, heq⟩
    · rw [heq]
      exact Or.inl rfl
    · rw [heq]
      exact Or.inr ⟨error, staging, h, hstep, rfl⟩
  · exact Or.inl rfl

/-- What an event does: an action that succeeds, or nothing but staged rows that are left behind. -/
theorem after_cases (s : Session) (e : Event) :
    (∃ action, e.request.action? = some action ∧ s.Acts e.request.name? action (s.after e) ∧
      ∀ b, s.admits b e.request = s.adds b (s.after e).store action) ∨
    (∃ staging, Staging.Valid staging ∧
      s.after e = { s with store := (s.store.stage staging).2 } ∧
      ∀ b, s.admits b e.request = []) := by
  rcases after_eq s e with hafter | ⟨error, staging, hstaging, hstep, hafter⟩
  · rcases step_cases s e.request with ⟨error, h⟩ | ⟨answer, hask, h⟩ |
      ⟨answer, s', action, haction, h, hacts⟩
    · refine Or.inr ⟨[], Staging.valid_nil, by rw [hafter, h]; rfl, fun b => ?_⟩
      rw [admits, h]
    · refine Or.inr ⟨[], Staging.valid_nil, by rw [hafter, h]; rfl, fun b => ?_⟩
      rw [admits, h, hask]
    · have hs' : s.after e = s' := by rw [hafter, h]
      refine Or.inl ⟨action, haction, hs' ▸ hacts, fun b => ?_⟩
      rw [admits, h, haction, hs']
  · refine Or.inr ⟨staging, hstaging, hafter, fun b => ?_⟩
    rw [admits, hstep]

theorem Reached.after (hs : s.Reached) (e : Event) : (s.after e).Reached := by
  unfold Session.after
  split
  · exact hs.perform e.request
  · exact hs.step e.request

theorem Valid.extends_after (hs : s.Valid) (e : Event) : s.store.Extends (s.after e).store := by
  rcases after_cases s e with ⟨action, -, hacts, -⟩ | ⟨staging, hstaging, heq, -⟩
  · have hwrites : s.Writes (.act action e.request.name?) (s.after e).store :=
      writes_of_acts rfl hacts
    exact hs.extends_of_writes hwrites
  · rw [heq]
    exact hs.store.extends_make hstaging none

theorem adds_of_isQuiet (h : action.isQuiet = true) : s.adds b store action = [] := by
  cases action with
  | addAll | install => cases h
  | _ => rfl

/-- A new relation has no rows, and no other relation gets any. -/
theorem Valid.rows_declare (hs : s.Valid) (registry : Option String) (schema : Schema) :
    ((s.store.declare registry schema).2.extension b).rows = (s.store.extension b).rows := by
  by_cases hid : b.id < s.store.next
  · rw [Store.declare_eq_make, Store.extension_make registry hid]
  · have hbefore := hs.store.rows_eq_nil (Nat.not_lt.mp hid)
    rw [hbefore, Store.extension, Store.extensions_declare, Store.lookup_create]
    split
    · rfl
    · exact hbefore

/-- Tuples are added to the relation that the name stands for, and to no other. -/
theorem Valid.rows_fill (hs : s.Valid) {relation : String} {tuples : List Tuple} {c : Base}
    (hc : s.relation relation = .ok (.base c))
    (h : s.store.addAll (.base c) tuples = .ok store) :
    (store.extension b).rows =
      ((s.store.extension b).rows ++ s.adds b store (.addAll relation tuples)).eraseDups := by
  have hnodup := (hs.store.valid_extension b).nodup
  have hadds : s.adds b store (.addAll relation tuples) = if c.id = b.id then tuples else [] := by
    rw [adds, hc]
    rfl
  obtain ⟨x, hx, rfl⟩ := Store.addAll_base_eq_ok_iff.mp h
  rw [hadds, Store.extension_refill]
  by_cases hid : b.id = c.id
  · have hextension := (hs.built hc).holds.extension_eq hid.symm
    rw [if_pos hid, if_pos hid.symm, Schema.eq_pushAll_of_insertAll hx, hextension,
      Extension.rows_pushAll hnodup]
  · rw [if_neg hid, if_neg (Ne.symm hid), List.append_nil, eraseDups_eq_self hnodup]

/-- What a dataset adds to a relation is what its declarations of this name hold. -/
theorem Valid.rows_install (hs : s.Valid) {registry : String} {d : Dataset} {bs : List Base}
    (h : s.store.install registry d = .ok (bs, store))
    (hb : ∀ registry, ∀ c ∈ store.registry registry, c.id = b.id → c = b) :
    (store.extension b).rows =
      ((s.store.extension b).rows ++ s.adds b store (.install registry d)).eraseDups := by
  obtain ⟨staging, -, hcommit⟩ := Store.install_eq_ok_iff.mp h
  have hnext : store.next = (s.store.stage staging).2.next := by
    rw [← Store.next_commit s.store registry staging, hcommit]
  rw [adds]
  by_cases hid : b.id < s.store.next
  -- the relation was there before
  · have hextension : store.extension b = s.store.extension b := by
      have hold := Store.extension_commit s.store registry staging b
      rwa [hcommit, Store.extension_stage hid] at hold
    rw [if_neg fun hnew => absurd hid (Nat.not_lt.mpr hnew.1), List.append_nil,
      eraseDups_eq_self (hs.store.valid_extension b).nodup, hextension]
  · have hle := Nat.not_lt.mp hid
    rw [hs.store.rows_eq_nil hle, List.nil_append]
    by_cases hmade : b.id < store.next
    -- it is made of the declarations of its name
    · have hinstalls := hs.store.installs h
      obtain ⟨c, hc, hcb⟩ := Store.exists_mem_stage hle (hnext ▸ hmade)
      rw [← Store.commit_fst s.store registry staging, hcommit] at hc
      have hlisted : c ∈ store.registry registry := by
        rw [hinstalls.registered]
        exact List.mem_append_right _ hc
      obtain rfl := hb registry c hlisted hcb
      obtain ⟨first, later, hnamed, -, hrows⟩ := hinstalls.made c hc
      rw [if_pos ⟨hle, hmade⟩, hnamed, hrows]
    -- it is made later
    · rw [if_neg fun hnew => hmade hnew.2,
        ((hs.store.install h).1).rows_eq_nil (Nat.not_lt.mp hmade)]
      rfl

/-- The rows after an action are those before and the ones that it adds, each where it is first. -/
theorem Acts.rows (hs : s.Valid) (h : s.Acts name action s')
    (hb : ∀ registry, ∀ c ∈ s'.store.registry registry, c.id = b.id → c = b) :
    (s'.store.extension b).rows =
      ((s.store.extension b).rows ++ s.adds b s'.store action).eraseDups := by
  have hsame : ∀ rows, rows = (s.store.extension b).rows → s.adds b s'.store action = [] →
      rows = ((s.store.extension b).rows ++ s.adds b s'.store action).eraseDups := by
    intro rows hrows hadds
    rw [hadds, List.append_nil, eraseDups_eq_self (hs.store.valid_extension b).nodup, hrows]
  cases h with
  | answers hquiet => exact hsame _ rfl (adds_of_isQuiet hquiet)
  | keeps hquiet => exact hsame _ (by rw [store_keep]) (adds_of_isQuiet hquiet)
  | moves => exact hsame _ (by rw [store_keep]) rfl
  | declares h =>
    refine hsame _ ?_ (adds_of_isQuiet h.isQuiet)
    rw [store_keep]
    exact hs.rows_declare _ _
  | derives hquiet _ h =>
    obtain ⟨-, rfl⟩ := Store.derive_eq_ok_iff.mp h
    refine hsame _ ?_ (adds_of_isQuiet hquiet)
    rw [store_keep]
    rfl
  | fills hc h => exact hs.rows_fill hc h
  | installs h => exact hs.rows_install h hb

theorem Acts.next_le (h : s.Acts name action s') : s.store.next ≤ s'.store.next := by
  cases h with
  | answers => exact Nat.le_refl _
  | keeps | moves => exact Nat.le_of_eq (by rw [store_keep])
  | @declares _ registry schema _ _ =>
    rw [store_keep]
    cases registry <;> exact Nat.le_succ _
  | derives _ _ h =>
    obtain ⟨-, rfl⟩ := Store.derive_eq_ok_iff.mp h
    rw [store_keep]
    exact Nat.le_succ _
  | fills _ h =>
    obtain ⟨x, -, rfl⟩ := Store.addAll_base_eq_ok_iff.mp h
    exact Nat.le_refl _
  | @installs registry _ _ _ h =>
    obtain ⟨staging, -, hcommit⟩ := Store.install_eq_commit_iff.mp h
    have hnext := Store.next_commit s.store registry staging
    rw [hcommit, Store.next_stage] at hnext
    exact hnext ▸ Nat.le_add_right _ _

/-- Numbers are given in rising order, and none is given back. -/
theorem next_le_after (s : Session) (e : Event) : s.store.next ≤ (s.after e).store.next := by
  rcases after_cases s e with ⟨action, -, hacts, -⟩ | ⟨staging, -, heq, -⟩
  · exact hacts.next_le
  · rw [heq, Store.next_stage]
    exact Nat.le_add_right _ _

/-- A relation that is known after an event was known before, or has a number that was not given
before. -/
theorem knows_of_after (h : (s.after e).Knows b) : s.Knows b ∨ s.store.next ≤ b.id := by
  rcases after_cases s e with ⟨action, -, hacts, -⟩ | ⟨staging, -, heq, -⟩
  · cases develops_of_acts hacts with
    | makes staging _ _ hknows => exact (hknows b h).imp_right Store.next_le_of_mem_stage
    | fills _ _ _ _ _ _ hknows => exact Or.inl (hknows b h)
  · rw [heq] at h
    exact Or.inl (knows_of_store h (s.store.keeps_stage staging).registry)

/-- The rows of a relation after an event are those before and the tuples that it admits, each where
it is first. What a failure leaves behind has numbers that no relation will be known by. -/
theorem Valid.rows_after (hs : s.Valid) (e : Event)
    (hknows : (s.after e).Knows b ∨ (s.after e).store.next ≤ b.id)
    (hb : ∀ registry, ∀ c ∈ (s.after e).store.registry registry, c.id = b.id → c = b) :
    ((s.after e).store.extension b).rows =
      ((s.store.extension b).rows ++ s.admits b e.request).eraseDups := by
  rcases after_cases s e with ⟨action, -, hacts, hadmits⟩ | ⟨staging, hstaging, heq, hadmits⟩
  · rw [hadmits]
    exact hacts.rows hs hb
  · rw [hadmits, List.append_nil, eraseDups_eq_self (hs.store.valid_extension b).nodup]
    rcases hknows with hknows | hnext
    · rw [heq] at hknows ⊢
      have hknown := knows_of_store hknows (s.store.keeps_stage staging).registry
      rw [Store.extension_stage (hs.id_lt_of_knows hknown)]
    · have hle := Nat.le_trans (next_le_after s e) hnext
      rw [heq] at hnext ⊢
      rw [hs.store.rows_eq_nil hle, (hs.store.stage hstaging).1.rows_eq_nil hnext]

theorem extension_eq_ok_iff :
    s.extension n = .ok x ↔ s.handles.lookup n = some (.extension x) := by
  unfold Session.extension
  split
  next y h => simp [h]
  next hne =>
    constructor
    · intro h
      cases h
    · exact fun h => absurd h (hne x)

/-- A name stands for what it stood for unless it is given again or its scan is moved on. -/
theorem Acts.lookup (h : s.Acts name action s') (hn : name ≠ some n)
    (hmove : ∀ c, s.scan n = .ok c → action ≠ .next n) :
    s'.handles.lookup n = s.handles.lookup n := by
  cases h with
  | answers | fills | installs => rfl
  | keeps => exact lookup_keep hn
  | declares | derives => exact lookup_keep (s := { s with store := _ }) hn
  | moves hc =>
    refine lookup_keep ?_
    rintro ⟨⟩
    exact hmove _ hc rfl

theorem lookup_after (hn : e.request.name? ≠ some n)
    (hmove : ∀ c, s.scan n = .ok c → e.request.action? ≠ some (.next n)) :
    (s.after e).handles.lookup n = s.handles.lookup n := by
  rcases after_cases s e with ⟨action, haction, hacts, -⟩ | ⟨staging, -, heq, -⟩
  · exact hacts.lookup hn fun c hc hnext => hmove c hc (haction.trans (congrArg some hnext))
  · rw [heq]

/-- An extension is kept under its name until the name is given again. -/
theorem extension_after (h : s.extension n = .ok x) (hn : e.request.name? ≠ some n) :
    (s.after e).extension n = .ok x := by
  rw [extension_eq_ok_iff] at h ⊢
  rw [lookup_after hn, h]
  -- what is moved on is a scan
  intro c hc
  rw [Session.scan, h] at hc
  cases hc

/-! ## Histories -/

theorem Reached.replay (hs : s.Reached) (es : List Event) : (s.replay es).Reached := by
  induction es generalizing s with
  | nil => exact hs
  | cons e es ih => exact ih (hs.after e)

/-- The sessions that are reached are those after events on the empty session. -/
theorem reached_iff : s.Reached ↔ ∃ es, empty.replay es = s := by
  constructor
  · intro h
    induction h with
    | empty => exact ⟨[], rfl⟩
    | step _ request ih =>
      obtain ⟨es, rfl⟩ := ih
      exact ⟨es ++ [⟨request, false⟩], by rw [replay, List.foldl_append]; rfl⟩
    | perform _ request ih =>
      obtain ⟨es, rfl⟩ := ih
      exact ⟨es ++ [⟨request, true⟩], by rw [replay, List.foldl_append]; rfl⟩
  · rintro ⟨es, rfl⟩
    exact Reached.empty.replay es

theorem Reached.extends_replay (hs : s.Reached) (es : List Event) :
    s.store.Extends (s.replay es).store := by
  induction es generalizing s with
  | nil => exact .refl _
  | cons e es ih => exact (hs.valid.extends_after e).trans (ih (hs.after e))

theorem knows_of_replay (h : (s.replay es).Knows b) : s.Knows b ∨ s.store.next ≤ b.id := by
  induction es generalizing s with
  | nil => exact Or.inl h
  | cons e es ih =>
    rcases ih h with h | h
    · exact knows_of_after h
    · exact Or.inr (Nat.le_trans (next_le_after s e) h)

/-- The rows of a stored relation after events are those before and the tuples that were admitted,
each where it came first. -/
theorem Reached.rows_replay (hs : s.Reached) (hb : (s.replay es).Knows b) :
    ((s.replay es).store.extension b).rows =
      ((s.store.extension b).rows ++ s.admitted b es).eraseDups := by
  induction es generalizing s with
  | nil =>
    rw [admitted, List.append_nil, eraseDups_eq_self (hs.valid.store.valid_extension b).nodup]
    rfl
  | cons e es ih =>
    have hafter := hs.after e
    -- what is registered after the event is still registered in the end, where `b` is known
    have hunique : ∀ registry, ∀ c ∈ (s.after e).store.registry registry, c.id = b.id → c = b := by
      intro registry c hc hid
      have hlisted := ((hafter.extends_replay es).registry registry).subset hc
      exact (hafter.replay es).lawful.unique (.registered hlisted) hb hid
    have hrows := hs.valid.rows_after e (knows_of_replay hb) hunique
    rw [admitted, ← List.append_assoc, ← eraseDups_append_eraseDups, ← hrows]
    exact ih hafter hb

theorem extension_replay (h : s.extension n = .ok x) (hn : ∀ e ∈ es, e.request.name? ≠ some n) :
    (s.replay es).extension n = .ok x := by
  induction es generalizing s with
  | nil => exact h
  | cons e es ih =>
    rw [List.forall_mem_cons] at hn
    exact ih (extension_after h hn.1) hn.2

/-- A snapshot is kept with the rows that the relation has at the moment. -/
theorem extension_snapshot {m : String} {r : Relation} (h : s.relation m = .ok r) (n : String) :
    (s.step (.act (.snapshot m) (some n))).2.extension n = .ok (s.store.rows r) := by
  have hact : s.act (some n) (.snapshot m) =
      .ok (.rows (s.store.rows r), s.keep (some n) (.extension (s.store.rows r))) := by
    rw [act, h]
    rfl
  rw [step, attempt, hact, extension_eq_ok_iff]
  simp [keep, Association.lookup_set]

/-- After any requests, whether performed in place or not, all rows of a relation have its arity and
are distinct, and so are the rows that a complement is taken in. Whatever happens then, a stored
relation keeps its rows and gets the tuples that are admitted to it, each where it came first, and a
snapshot keeps the rows that it was taken with. -/
theorem append_only (hs : s.Reached) :
    (∀ r, s.store.Built r →
      (s.store.rows r).rows.Nodup ∧ ∀ t ∈ (s.store.rows r).rows, t.length = r.arity) ∧
    (∀ registry arity id,
      (s.store.ambient registry arity id).rows.Nodup ∧
        ∀ t ∈ (s.store.ambient registry arity id).rows, t.length = arity) ∧
    (∀ m r n, s.relation m = .ok r →
      (s.step (.act (.snapshot m) (some n))).2.extension n = .ok (s.store.rows r)) ∧
    ∀ es : List Event,
      (∀ b, (s.store.extension b).rows <+: ((s.replay es).store.extension b).rows) ∧
      (∀ b, (s.replay es).Knows b →
        ((s.replay es).store.extension b).rows =
          ((s.store.extension b).rows ++ s.admitted b es).eraseDups) ∧
      ∀ n x, s.extension n = .ok x → (∀ e ∈ es, e.request.name? ≠ some n) →
        (s.replay es).extension n = .ok x := by
  have hstore := hs.valid.store
  refine ⟨fun r hr => ?_, fun registry arity id => ?_, fun m r n hr => extension_snapshot hr n,
    fun es => ⟨fun b => (hs.extends_replay es).rows b, fun b hb => hs.rows_replay hb,
      fun n x hx hn => extension_replay hx hn⟩⟩
  · have hrows := Store.ofArity_rows hstore hr
    exact ⟨hrows.valid.nodup, fun t ht => hrows.length ht⟩
  · have hrows := Store.ofArity_ambient hstore registry arity id
    exact ⟨hrows.valid.nodup, fun t ht => hrows.length ht⟩

/-- The game with a snapshot of what beats what. -/
def gameWatched : Session := (game.step (.act (.snapshot "beats") (some "early"))).2

/-- What happens then: a batch of which the last pair breaks a guard, and one that adds a pair twice. -/
def gameSequel : List Event :=
  [⟨.act (.addAll "wins" [[.text "rock", .text "lizard"], [.text "paper", .text "scissors"]]) none,
      true⟩,
   ⟨.act (.addAll "beats" [[.text "lizard", .text "paper"], [.text "rock", .text "scissors"],
      [.text "rock", .text "lizard"], [.text "lizard", .text "paper"]]) none, true⟩]

theorem append_only_gameWatched :
    gameWatched.Reached ∧
      ((gameWatched.replay gameSequel).store.extension gameBeats).rows =
        [[.text "rock", .text "scissors"], [.text "scissors", .text "paper"],
          [.text "paper", .text "rock"], [.text "lizard", .text "paper"],
          [.text "rock", .text "lizard"]] ∧
      (gameWatched.store.extension gameBeats).rows <+:
        ((gameWatched.replay gameSequel).store.extension gameBeats).rows ∧
      (gameWatched.replay gameSequel).extension "early" =
        .ok (gameWatched.store.extension gameBeats) := by
  have hreached : gameWatched.Reached := reached_game.step _
  have hregistry : (gameWatched.replay gameSequel).store.registry "main" = [gameBeats] := rfl
  have hknows : (gameWatched.replay gameSequel).Knows gameBeats := by
    have hlisted : gameBeats ∈ (gameWatched.replay gameSequel).store.registry "main" := by
      simp [hregistry]
    exact .registered hlisted
  have hadmitted : gameWatched.admitted gameBeats gameSequel =
      [[.text "lizard", .text "paper"], [.text "rock", .text "scissors"],
        [.text "rock", .text "lizard"], [.text "lizard", .text "paper"]] := rfl
  obtain ⟨hinitial, hrows, hearly⟩ := (append_only hreached).2.2.2 gameSequel
  refine ⟨hreached, ?_, hinitial gameBeats, hearly "early" _ rfl ?_⟩
  · rw [hrows gameBeats hknows, hadmitted]
    rfl
  · simp [gameSequel, Request.name?]

end Session

end RelationAlgebra
