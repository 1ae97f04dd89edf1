import RelationAlgebra.Proofs.Declared
import RelationAlgebra.Proofs.Growth
import RelationAlgebra.Proofs.Insertion

/-!
# Batches

Tuples are added all together or one by one. Adding them all is the same as adding them one by one,
except that a failure leaves nothing behind: the first tuple that is refused is the same, and it is
refused for the same reason (`Store.addAll_eq_addEach`). Which tuple that is depends on their order,
but not whether there is one, nor what is stored in the end (`Session.addAll_perm`).
-/

namespace RelationAlgebra

namespace Store

variable {s s' : Store} {b : Base} {tuples tuples' : List Tuple}

/-! ## One by one -/

/-- The store with tuples added to a relation one by one, up to the first that is refused. -/
def addEach (s : Store) (r : Relation) (tuples : List Tuple) : Except RelationError Store :=
  tuples.foldlM (fun s t => s.add r t) s

theorem addAll_eq_map (s : Store) (b : Base) (tuples : List Tuple) :
    s.addAll (.base b) tuples = (b.insertAll (s.extension b) tuples).map (s.refill b.id) := by
  rw [addAll]
  cases b.insertAll (s.extension b) tuples <;> rfl

/-- What a batch does to a store depends on the rows of its relation alone. -/
theorem addAll_refill (s : Store) (b : Base) (x : Extension) (tuples : List Tuple) :
    (s.refill b.id x).addAll (.base b) tuples = (b.insertAll x tuples).map (s.refill b.id) := by
  have hrefill : (s.refill b.id x).refill b.id = s.refill b.id :=
    funext fun y => s.refill_refill b.id x y
  rw [addAll_eq_map, extension_refill, if_pos rfl, hrefill]

theorem addEach_refill (s : Store) (b : Base) (x : Extension) (tuples : List Tuple) :
    (s.refill b.id x).addEach (.base b) tuples = (b.insertAll x tuples).map (s.refill b.id) := by
  induction tuples generalizing x with
  | nil => rfl
  | cons t tuples ih =>
    have hfirst : (s.refill b.id x).add (.base b) t = (b.insert x t).map (s.refill b.id) := by
      rw [add, addAll_refill, Schema.insertAll_singleton]
    rw [addEach, List.foldlM_cons, hfirst, Schema.insertAll_cons]
    cases b.insert x t with
    | error e => rfl
    | ok y => exact ih y

/-- A batch can be cut anywhere, and its parts are added one after another. -/
theorem addAll_append (s : Store) (b : Base) (first second : List Tuple) :
    s.addAll (.base b) (first ++ second) =
      s.addAll (.base b) first >>= fun store => store.addAll (.base b) second := by
  rw [addAll_eq_map, addAll_eq_map, Schema.insertAll_append]
  cases b.insertAll (s.extension b) first with
  | error e => rfl
  | ok x => exact (s.addAll_refill b x second).symm

/-- Adding tuples all together is adding them one by one, or nothing: it succeeds if every one of
them can be added after those before it, and stores the same rows in the same order. If it fails, it
does so with the error of the first tuple that cannot be added, and the store is left as it is. Two
batches that succeed one after the other are one batch. -/
theorem addAll_eq_addEach (hb : s.Holds b) (tuples : List Tuple) :
    s.addAll (.base b) tuples = s.addEach (.base b) tuples ∧
      (∀ e, s.addAll (.base b) tuples = .error e ↔
        ∃ before t after store, tuples = before ++ t :: after ∧
          s.addEach (.base b) before = .ok store ∧ store.add (.base b) t = .error e) ∧
      (∀ store, s.addEach (.base b) tuples = .ok store →
        (InPlace.addAll (.base b) tuples).perform s = (.ok (), store)) ∧
      (∀ e, s.addEach (.base b) tuples = .error e →
        (InPlace.addAll (.base b) tuples).perform s = (.error e, s)) ∧
      ∀ first second, s.addAll (.base b) (first ++ second) =
        s.addAll (.base b) first >>= fun store => store.addAll (.base b) second := by
  have heach : s.addAll (.base b) tuples = s.addEach (.base b) tuples := by
    have hrefill := s.addEach_refill b (s.extension b) tuples
    rw [hb.refill_extension] at hrefill
    rw [addAll_eq_map, hrefill]
  refine ⟨heach, fun e => ?_, fun store h => ?_, fun e h => ?_, s.addAll_append b⟩
  · rw [heach]
    exact foldlM_eq_error_iff
  · rw [InPlace.perform_addAll, heach, h]
  · rw [InPlace.perform_addAll, heach, h]

/-- What beats what, with a lizard. -/
def gameLizard : List Tuple :=
  [[.text "lizard", .text "paper"], [.text "rock", .text "lizard"],
   [.text "rock", .text "lizard"]]

theorem addAll_eq_addEach_gameBeats :
    Session.game.store.Holds Session.gameBeats ∧
      (InPlace.addAll (.base Session.gameBeats) gameLizard).perform Session.game.store =
        (.ok (), Session.game.store.refill 0
          ((Session.game.store.extension Session.gameBeats).pushAll (gameLizard.take 2))) ∧
      (InPlace.addAll (.base Session.gameBeats)
          (gameLizard ++ [[.text "lizard", .text "rock"]])).perform Session.game.store =
        (.error (.propertyViolation "beats" .asymmetric [.text "lizard", .text "rock"]),
          Session.game.store) := by
  have hholds : Session.game.store.Holds Session.gameBeats := rfl
  have hadded := addAll_eq_addEach hholds gameLizard
  have hrefused := addAll_eq_addEach hholds (gameLizard ++ [[.text "lizard", .text "rock"]])
  exact ⟨hholds, hadded.2.2.1 _ rfl, hrefused.2.2.2.1 _ rfl⟩

/-! ## In another order -/

/-- Tuples can be added all together if each of them is let in beside the stored rows and no two of
them clash. They come behind these rows. -/
theorem addAll_eq_ok_iff :
    s.addAll (.base b) tuples = .ok s' ↔
      (∀ t ∈ tuples, b.Admits (s.extension b) t) ∧
        tuples.Pairwise (fun t u => ¬ b.Clash t u) ∧
        s' = s.refill b.id ((s.extension b).pushAll tuples) := by
  rw [addAll_base_eq_ok_iff]
  simp only [Schema.insertAll_eq_ok_iff]
  constructor
  · rintro ⟨x, ⟨hadmits, hpairwise, rfl⟩, rfl⟩
    exact ⟨hadmits, hpairwise, rfl⟩
  · rintro ⟨hadmits, hpairwise, rfl⟩
    exact ⟨_, ⟨hadmits, hpairwise, rfl⟩, rfl⟩

theorem extension_of_addAll (h : s.addAll (.base b) tuples = .ok s') :
    s'.extension b = (s.extension b).pushAll tuples := by
  obtain ⟨-, -, rfl⟩ := addAll_eq_ok_iff.mp h
  rw [extension_refill, if_pos rfl]

/-- Clashing does not depend on which of two tuples comes first. -/
theorem exists_addAll_of_perm (hp : tuples.Perm tuples') (h : s.addAll (.base b) tuples = .ok s') :
    ∃ store, s.addAll (.base b) tuples' = .ok store := by
  obtain ⟨hadmits, hpairwise, -⟩ := addAll_eq_ok_iff.mp h
  refine ⟨_, addAll_eq_ok_iff.mpr ⟨fun t ht => hadmits t (hp.mem_iff.mpr ht), ?_, rfl⟩⟩
  exact (hp.pairwise_iff fun hno hclash => hno hclash.symm).mp hpairwise

end Store

namespace Session

variable {s : Session} {tuples tuples' : List Tuple}

/-- After any requests, whether tuples can be added all together does not depend on their order, and
neither does it matter for which rows are stored then. -/
theorem addAll_perm (hs : s.Reached) (b : Base) (hp : tuples.Perm tuples') :
    ((∃ store, s.store.addAll (.base b) tuples = .ok store) ↔
        ∃ store, s.store.addAll (.base b) tuples' = .ok store) ∧
      ∀ store store', s.store.addAll (.base b) tuples = .ok store →
        s.store.addAll (.base b) tuples' = .ok store' →
        (store.extension b).equal (store'.extension b) = true ∧
          ∀ t, t ∈ (store.extension b).rows ↔ t ∈ (store'.extension b).rows := by
  refine ⟨⟨?_, ?_⟩, fun store store' h h' => ?_⟩
  · rintro ⟨store, h⟩
    exact Store.exists_addAll_of_perm hp h
  · rintro ⟨store, h⟩
    exact Store.exists_addAll_of_perm hp.symm h
  · rw [Store.extension_of_addAll h, Store.extension_of_addAll h']
    have hrows := Extension.perm_rows_pushAll (hs.valid.store.valid_extension b).nodup hp
    refine ⟨Extension.equal_of_perm ?_ hrows, fun t => hrows.mem_iff⟩
    rw [Extension.arity_pushAll, Extension.arity_pushAll]

theorem addAll_perm_gameBeats :
    ∃ store store', game.store.addAll (.base gameBeats) Store.gameLizard = .ok store ∧
      game.store.addAll (.base gameBeats) Store.gameLizard.reverse = .ok store' ∧
      (store.extension gameBeats).rows ≠ (store'.extension gameBeats).rows ∧
      (store.extension gameBeats).equal (store'.extension gameBeats) = true := by
  have hperm := List.reverse_perm Store.gameLizard
  have hboth := addAll_perm reached_game gameBeats hperm.symm
  obtain ⟨store', h'⟩ := hboth.1.mp ⟨_, rfl⟩
  refine ⟨_, store', rfl, h', ?_, (hboth.2 _ store' rfl h').1⟩
  rw [Store.extension_of_addAll h']
  decide

-- which of the tuples is refused does depend on the order
example :
    Schema.insertAll gameBeats.toSchema (.empty 2)
        [[.text "spock", .text "rock"], [.text "rock", .text "spock"]] =
      .error (.propertyViolation "beats" .asymmetric [.text "rock", .text "spock"]) ∧
    Schema.insertAll gameBeats.toSchema (.empty 2)
        [[.text "rock", .text "spock"], [.text "spock", .text "rock"]] =
      .error (.propertyViolation "beats" .asymmetric [.text "spock", .text "rock"]) :=
  ⟨rfl, rfl⟩

end Session

end RelationAlgebra
