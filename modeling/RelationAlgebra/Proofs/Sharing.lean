import RelationAlgebra.Proofs.Scan

/-!
# Shared rows

How scans and insertions share rows. The rows of a relation lie in a cell. A scan refers to the cell
that the relation has when the scan begins, and keeps the index of the row to look at next. An
insertion works on a staged cell, which is that of the relation at first. It never writes to a cell
that a relation or a scan refers to but goes on with a copy, and the relation gets the staged cell
in the end, if no tuple is refused (`Memory.addAll`).

A memory stands for a store and for scans. What is done in memory is what is done to these, and a
failure leaves both as they were (`Memory.Inserts`, `Memory.addAll_spec`). Hence a scan yields the
rows that a relation had when the scan began, whatever is added meanwhile
(`Session.scan_isolated`).
-/

namespace RelationAlgebra

/-! ## Cursors -/

/-- A scan as it lies in memory. -/
structure Cursor where
  cell : Nat
  /-- The index of the row to look at next. -/
  index : Nat
  position : Nat
  value : Atom

namespace Cursor

/-- The scan that a cursor is if its cell has the rows of `x`. -/
def scan (k : Cursor) (x : Extension) : Scan := ⟨x.rows.drop k.index, k.position, k.value⟩

/-- The first row at the index or behind it that has the value, and the cursor behind that row. -/
def next (rows : List Tuple) (k : Cursor) : Option Tuple × Cursor :=
  if h : k.index < rows.length then
    if rows[k.index][k.position]? = some k.value then
      (some rows[k.index], { k with index := k.index + 1 })
    else next rows { k with index := k.index + 1 }
  else (none, k)
termination_by rows.length - k.index

/-- A cursor goes on as the scan that it is. -/
theorem next_spec (x : Extension) (k : Cursor) :
    (k.next x.rows).1 = (k.scan x).next.1 ∧
      (k.next x.rows).2.scan x = (k.scan x).next.2 ∧ (k.next x.rows).2.cell = k.cell := by
  fun_induction Cursor.next x.rows k with
  | case1 k h hvalue =>
    rw [Cursor.scan, List.drop_eq_getElem_cons h, Scan.next_cons_of_selects hvalue]
    exact ⟨rfl, rfl, rfl⟩
  | case2 k h hvalue ih =>
    rw [Cursor.scan, List.drop_eq_getElem_cons h, Scan.next_cons_of_not_selects hvalue]
    exact ih
  | case3 k h =>
    have hpending : x.rows.drop k.index = [] := List.drop_eq_nil_of_le (Nat.le_of_not_lt h)
    simp [Cursor.scan, Scan.next, hpending]

end Cursor

/-! ## Memory -/

/-- Cells with rows, and what refers to them. -/
structure Memory where
  /-- The number of the next relation. -/
  fresh : Nat := 0
  /-- The registries, by name. -/
  registries : List (String × List Base) := []
  /-- The cells of the stored relations, by number. -/
  relations : List (Nat × Nat) := []
  cells : List Extension := []
  cursors : List Cursor := []

namespace Memory

/-- The rows in a cell. -/
def read (m : Memory) (a : Nat) : Extension := m.cells[a]?.getD (.empty 0)

/-- Whether a relation or a scan refers to a cell. -/
def refers (m : Memory) (a : Nat) : Bool :=
  m.relations.any (fun entry => entry.2 == a) || m.cursors.any fun k => k.cell == a

/-- The store that a memory stands for. -/
def store (m : Memory) : Store where
  next := m.fresh
  extensions := Association.mapValues m.read m.relations
  registries := m.registries

/-- The scans that a memory stands for. -/
def scans (m : Memory) : List Scan := m.cursors.map fun k => k.scan (m.read k.cell)

/-- Whether all cells that something refers to are there. -/
def Valid (m : Memory) : Prop := ∀ a, m.refers a = true → a < m.cells.length

/-- A memory in which every stored relation has a cell of its own, and no scan has begun. -/
def ofStore (s : Store) : Memory where
  fresh := s.next
  registries := s.registries
  relations := s.extensions.zipIdx.map fun entry => (entry.1.1, entry.2)
  cells := s.extensions.map Prod.snd

/-- A new cell. -/
def alloc (m : Memory) (x : Extension) : Nat × Memory :=
  (m.cells.length, { m with cells := m.cells ++ [x] })

/-- A cell with the rows that a relation has now. A stored relation shares its own, and those of a
derived relation are computed into a new one. -/
def snapshot (m : Memory) (r : Relation) : Nat × Memory :=
  match r with
  | .base b =>
    match m.relations.lookup b.id with
    | some a => (a, m)
    | none => m.alloc (.empty b.arity)
  | derived => m.alloc (m.store.rows derived)

/-- The staged cell with a tuple pushed. A cell that something refers to is copied first. -/
def push (m : Memory) (a : Nat) (t : Tuple) : Nat × Memory :=
  if (m.read a).contains t then (a, m)
  else if m.refers a then m.alloc ((m.read a).push t)
  else (a, { m with cells := m.cells.set a ((m.read a).push t) })

/-- Admits tuples to a staged cell in turn, up to the first that is refused. -/
def insertAll (schema : Schema) : List Tuple → Nat → Memory → Except RelationError Nat × Memory
  | [], a, m => (.ok a, m)
  | t :: tuples, a, m =>
    match schema.insert (m.read a) t with
    | .ok _ => insertAll schema tuples (m.push a t).1 (m.push a t).2
    | .error e => (.error e, m)

/-- The memory in which a relation has the cell `a`. -/
def give (m : Memory) (id a : Nat) : Memory :=
  { m with relations := Association.set id a m.relations }

/-- Admits tuples to a stored relation, which gets the staged cell if no tuple is refused. -/
def addAll (m : Memory) (r : Relation) (tuples : List Tuple) : Except RelationError Unit × Memory :=
  match r with
  | .base b =>
    match insertAll b.toSchema tuples (m.snapshot (.base b)).1 (m.snapshot (.base b)).2 with
    | (.ok a, m) => (.ok (), m.give b.id a)
    | (.error e, m) => (.error e, m)
  | derived => (.error (.readOnly derived.name), m)

/-- Begins a scan of the rows that a relation has now. -/
def scan (m : Memory) (r : Relation) (position : Nat) (value : Atom) : Memory :=
  let (a, m) := m.snapshot r
  { m with cursors := m.cursors ++ [⟨a, 0, position, value⟩] }

/-- The next row of a scan, and the memory in which the scan is moved on. -/
def next (m : Memory) (i : Nat) : Option Tuple × Memory :=
  match m.cursors[i]? with
  | some k =>
    let (t, k) := k.next (m.read k.cell).rows
    (t, { m with cursors := m.cursors.set i k })
  | none => (none, m)

/-- What is done in memory. Scans go by the order in which they began. -/
inductive Call where
  | scan (r : Relation) (position : Nat) (value : Atom)
  | next (i : Nat)
  | addAll (r : Relation) (tuples : List Tuple)

/-- Whether a call is one for the next row of a scan. -/
def Call.isNext (i : Nat) : Call → Bool
  | next j => j == i
  | _ => false

/-- The memory after a call. -/
def after (m : Memory) : Call → Memory
  | .scan r position value => m.scan r position value
  | .next i => (m.next i).2
  | .addAll r tuples => (m.addAll r tuples).2

/-- What the calls for the next row of a scan give in the course of calls. -/
def yields (m : Memory) (i : Nat) : List Call → List (Option Tuple)
  | [] => []
  | call :: calls =>
    if call.isNext i then (m.next i).1 :: (m.after call).yields i calls
    else (m.after call).yields i calls

variable {m m' m'' : Memory} {a i id : Nat} {c : Scan} {call : Call}

theorem refers_iff :
    m.refers a = true ↔ (∃ entry ∈ m.relations, entry.2 = a) ∨ ∃ k ∈ m.cursors, k.cell = a := by
  simp [refers]

/-- A store laid out in memory has a cell for every reference. -/
theorem valid_ofStore (s : Store) : (ofStore s).Valid := by
  intro a ha
  rcases refers_iff.mp ha with ⟨entry, hentry, rfl⟩ | ⟨k, hk, -⟩
  · obtain ⟨⟨e, a⟩, he, rfl⟩ := List.mem_map.mp hentry
    have hlt := (List.getElem?_eq_some_iff.mp (List.mem_zipIdx_iff_getElem?.mp he)).1
    simpa [ofStore] using hlt
  · cases hk

/-- A store laid out in memory reads back as it was. -/
theorem store_ofStore (s : Store) : (ofStore s).store = s := by
  have hrows : ∀ p ∈ s.extensions.zipIdx, (p.1.1, (ofStore s).read p.2) = p.1 := by
    intro p hp
    have hcell := List.mem_zipIdx_iff_getElem?.mp hp
    simp [read, ofStore, hcell]
  have hextensions : (ofStore s).store.extensions = s.extensions := by
    simp only [store, ofStore, Association.mapValues, List.map_map]
    calc s.extensions.zipIdx.map (fun p => (p.1.1, (ofStore s).read p.2))
        = s.extensions.zipIdx.map Prod.fst := List.map_congr_left hrows
      _ = s.extensions := List.zipIdx_map_fst 0 s.extensions
  rw [show (ofStore s).store = { s with extensions := (ofStore s).store.extensions } from rfl,
    hextensions]

/-! ## What stays as it was -/

/-- Whether a memory is another with more cells, and with the same rows in every cell that something
refers to. -/
structure Spares (m m' : Memory) : Prop where
  rest : m' = { m with cells := m'.cells }
  length : m.cells.length ≤ m'.cells.length
  read : ∀ {a}, m.refers a = true → m'.read a = m.read a

namespace Spares

theorem refl (m : Memory) : m.Spares m := ⟨rfl, Nat.le_refl _, fun _ => rfl⟩

theorem relations (h : m.Spares m') : m'.relations = m.relations := by rw [h.rest]

theorem cursors (h : m.Spares m') : m'.cursors = m.cursors := by rw [h.rest]

theorem refers (h : m.Spares m') (a : Nat) : m'.refers a = m.refers a := by
  rw [Memory.refers, Memory.refers, h.relations, h.cursors]

theorem trans (h : m.Spares m') (h' : m'.Spares m'') : m.Spares m'' := by
  refine ⟨?_, Nat.le_trans h.length h'.length, fun ha => ?_⟩
  · rw [h'.rest, h.rest]
  · rw [h'.read (by rwa [h.refers]), h.read ha]

theorem valid (h : m.Spares m') (hm : m.Valid) : m'.Valid := by
  intro a ha
  rw [h.refers] at ha
  exact Nat.lt_of_lt_of_le (hm a ha) h.length

theorem store (h : m.Spares m') : m'.store = m.store := by
  have hextensions : Association.mapValues m'.read m.relations =
      Association.mapValues m.read m.relations := by
    refine List.map_congr_left fun entry hentry => ?_
    rw [h.read (refers_iff.mpr (Or.inl ⟨entry, hentry, rfl⟩))]
  rw [Memory.store, h.relations, hextensions, h.rest]
  rfl

theorem scans (h : m.Spares m') : m'.scans = m.scans := by
  rw [Memory.scans, h.cursors]
  refine List.map_congr_left fun k hk => ?_
  rw [h.read (refers_iff.mpr (Or.inr ⟨k, hk, rfl⟩))]

end Spares

/-! ## Staged cells -/

/-- Whether a cell with the rows of `x` is come by without touching what something refers to. -/
structure Places (m : Memory) (x : Extension) (result : Nat × Memory) : Prop where
  spares : m.Spares result.2
  read : result.2.read result.1 = x
  lt : result.1 < result.2.cells.length

theorem places_self (ha : a < m.cells.length) : m.Places (m.read a) (a, m) := ⟨.refl m, rfl, ha⟩

/-- A new cell touches no other. -/
theorem places_alloc (hm : m.Valid) (x : Extension) : m.Places x (m.alloc x) := by
  refine ⟨⟨rfl, by simp [alloc], fun {a} ha => ?_⟩, by simp [alloc, read], by simp [alloc]⟩
  rw [read, read, alloc, List.getElem?_append_left (hm a ha)]

/-- A cell that a relation has is one that something refers to. -/
theorem refers_of_lookup (h : m.relations.lookup id = some a) : m.refers a = true := by
  obtain ⟨before, after, heq, -⟩ := List.lookup_eq_some_iff.mp h
  refine refers_iff.mpr (Or.inl ⟨(id, a), ?_, rfl⟩)
  rw [heq]
  simp

/-- A snapshot of a stored relation is its own cell, and one of a derived relation is new. -/
theorem places_snapshot (hm : m.Valid) (r : Relation) :
    m.Places (m.store.rows r) (m.snapshot r) := by
  cases r with
  | base b =>
    have hrows : m.store.rows (.base b) = (m.store.extensions.lookup b.id).getD (.empty b.arity) :=
      rfl
    rw [hrows, store, Association.lookup_mapValues, snapshot]
    cases hcell : m.relations.lookup b.id with
    | some a => exact places_self (hm a (refers_of_lookup hcell))
    | none => exact places_alloc hm _
  | union | intersection | complement | composition | converse => exact places_alloc hm _

/-- A push copies the cell if something refers to it, and writes to it if nothing does. -/
theorem places_push (hm : m.Valid) (ha : a < m.cells.length) (t : Tuple) :
    m.Places ((m.read a).push t) (m.push a t) := by
  unfold push
  split
  next hcontains =>
    rw [Extension.push_of_mem (Extension.contains_iff.mp hcontains)]
    exact places_self ha
  next =>
    split
    next => exact places_alloc hm _
    next hrefers =>
      -- nothing refers to the cell, so writing to it is not seen
      refine ⟨⟨rfl, by simp, fun {a'} ha' => ?_⟩, by simp [read, ha], by simpa using ha⟩
      have hne : a ≠ a' := by
        rintro rfl
        exact hrefers ha'
      simp [read, hne]

/-- Whether what comes of admitting tuples to a staged cell is what is wanted. A failure touches
nothing that something refers to. -/
inductive Inserts (m : Memory) :
    Except RelationError Extension → Except RelationError Nat × Memory → Prop where
  | ok {x : Extension} {a : Nat} {m' : Memory} (h : m.Places x (a, m')) :
    Inserts m (.ok x) (.ok a, m')
  | error (e : RelationError) {m' : Memory} (h : m.Spares m') : Inserts m (.error e) (.error e, m')

theorem Inserts.trans {wanted : Except RelationError Extension}
    {got : Except RelationError Nat × Memory} (h : m.Spares m') (hi : m'.Inserts wanted got) :
    m.Inserts wanted got := by
  cases hi with
  | ok hplaces => exact .ok ⟨h.trans hplaces.spares, hplaces.read, hplaces.lt⟩
  | error e hspares => exact .error e (h.trans hspares)

/-- Tuples are admitted to a staged cell as they are to its rows. -/
theorem inserts_insertAll (hm : m.Valid) (ha : a < m.cells.length) (schema : Schema)
    (tuples : List Tuple) :
    m.Inserts (schema.insertAll (m.read a) tuples) (insertAll schema tuples a m) := by
  induction tuples generalizing m a with
  | nil => exact .ok (places_self ha)
  | cons t tuples ih =>
    rw [Schema.insertAll, List.foldlM_cons, insertAll]
    cases hinsert : schema.insert (m.read a) t with
    | error e => exact .error e (.refl m)
    | ok x =>
      have hplaces := places_push hm ha t
      have hx : (m.push a t).2.read (m.push a t).1 = x := by
        rw [hplaces.read, (Schema.insert_eq_ok_iff.mp hinsert).2.2]
      have hrest := ih (hplaces.spares.valid hm) hplaces.lt
      rw [hx] at hrest
      exact .trans hplaces.spares hrest

/-! ## Calls -/

/-- To give a relation another cell is to fill its extension again. -/
theorem store_give (m : Memory) (id a : Nat) :
    (m.give id a).store = m.store.refill id (m.read a) :=
  congrArg (fun extensions => { m.store with extensions })
    (Association.set_mapValues m.read id a m.relations).symm

/-- A relation can be given any cell that there is. -/
theorem Valid.give (hm : m.Valid) (id : Nat) (ha : a < m.cells.length) : (m.give id a).Valid := by
  intro a' ha'
  rcases refers_iff.mp ha' with ⟨entry, hentry, rfl⟩ | hcursor
  · rcases Association.mem_set hentry with hentry | heq
    · exact hm _ (refers_iff.mpr (Or.inl ⟨entry, hentry, rfl⟩))
    · exact heq ▸ ha
  · exact hm _ (refers_iff.mpr (Or.inr hcursor))

/-- An insertion in memory is one into the store that the memory stands for, and no scan sees it. A
failure is not seen at all. -/
theorem addAll_spec (hm : m.Valid) (r : Relation) (tuples : List Tuple) :
    (m.addAll r tuples).2.Valid ∧ (m.addAll r tuples).2.scans = m.scans ∧
      (m.addAll r tuples).1.map (fun _ => (m.addAll r tuples).2.store) = m.store.addAll r tuples ∧
      ∀ e, (m.addAll r tuples).1 = .error e → (m.addAll r tuples).2.store = m.store := by
  cases r with
  | base b =>
    have hplaces := places_snapshot hm (.base b)
    have hinserts := Inserts.trans hplaces.spares
      (inserts_insertAll (hplaces.spares.valid hm) hplaces.lt b.toSchema tuples)
    rw [hplaces.read] at hinserts
    have hwanted : m.store.addAll (.base b) tuples =
        (b.insertAll (m.store.rows (.base b)) tuples).map (m.store.refill b.id) := by
      have hrows : m.store.rows (.base b) = m.store.extension b := rfl
      rw [Store.addAll, hrows]
      cases b.insertAll (m.store.extension b) tuples <;> rfl
    rw [hwanted, addAll]
    generalize insertAll b.toSchema tuples _ _ = got at hinserts
    generalize b.insertAll (m.store.rows (.base b)) tuples = wanted at hinserts
    cases hinserts with
    | error e hspares => exact ⟨hspares.valid hm, hspares.scans, rfl, fun _ _ => hspares.store⟩
    | @ok x a m' hplaces =>
      have hspares : m.Spares m' := hplaces.spares
      have hread : m'.read a = x := hplaces.read
      have hstore : (m'.give b.id a).store = m.store.refill b.id x := by
        rw [store_give, hread, hspares.store]
      exact ⟨(hspares.valid hm).give b.id hplaces.lt, hspares.scans, congrArg Except.ok hstore,
        fun e he => by cases he⟩
  | union | intersection | complement | composition | converse =>
    exact ⟨hm, rfl, rfl, fun _ _ => rfl⟩

/-- A scan that begins is one of the rows that the relation has in the store. -/
theorem scan_spec (hm : m.Valid) (r : Relation) (position : Nat) (value : Atom) :
    (m.scan r position value).Valid ∧
      (m.scan r position value).scans = m.scans ++ [.start (m.store.rows r) position value] := by
  have hplaces := places_snapshot hm r
  unfold scan
  generalize m.snapshot r = result at hplaces
  obtain ⟨a, m'⟩ := result
  obtain ⟨hspares, hread, hlt⟩ := hplaces
  refine ⟨fun a' ha' => ?_, ?_⟩
  · rcases refers_iff.mp ha' with hrelation | ⟨k, hk, rfl⟩
    · exact hspares.valid hm _ (refers_iff.mpr (Or.inl hrelation))
    · rcases List.mem_append.mp hk with hk | hk
      · exact hspares.valid hm _ (refers_iff.mpr (Or.inr ⟨k, hk, rfl⟩))
      · obtain rfl := List.mem_singleton.mp hk
        exact hlt
  · rw [← hspares.scans, ← hread]
    exact List.map_append

/-- A scan is moved on as the one that it stands for, and the others stay where they are. -/
theorem next_spec (hm : m.Valid) (hc : m.scans[i]? = some c) :
    (m.next i).1 = c.next.1 ∧ (m.next i).2.Valid ∧
      (m.next i).2.scans = m.scans.set i c.next.2 := by
  rw [scans, List.getElem?_map] at hc
  obtain ⟨k, hk, rfl⟩ := Option.map_eq_some_iff.mp hc
  obtain ⟨hfirst, hrest, hcell⟩ := k.next_spec (m.read k.cell)
  rw [next, hk]
  refine ⟨hfirst, fun a ha => ?_, ?_⟩
  · rcases refers_iff.mp ha with hrelation | ⟨k', hk', rfl⟩
    · exact hm _ (refers_iff.mpr (Or.inl hrelation))
    · rcases List.mem_or_eq_of_mem_set hk' with hk' | rfl
      · exact hm _ (refers_iff.mpr (Or.inr ⟨k', hk', rfl⟩))
      · rw [hcell]
        exact hm _ (refers_iff.mpr (Or.inr ⟨k, List.mem_of_getElem? hk, rfl⟩))
  · have hset : ((k.next (m.read k.cell).rows).2).scan
        (m.read (k.next (m.read k.cell).rows).2.cell) = (k.scan (m.read k.cell)).next.2 := by
      rw [hcell, hrest]
    rw [← hset]
    exact List.map_set

/-- A scan that has not begun gives nothing. -/
theorem next_of_none (h : m.scans[i]? = none) : m.next i = (none, m) := by
  have hcursor : m.cursors[i]? = none := by simpa [scans] using h
  rw [next, hcursor]

/-- No call leaves a reference without a cell. -/
theorem valid_after (hm : m.Valid) (call : Call) : (m.after call).Valid := by
  cases call with
  | scan r position value => exact (scan_spec hm r position value).1
  | next j =>
    cases hj : m.scans[j]? with
    | some d => exact (next_spec hm hj).2.1
    | none => rwa [after, next_of_none hj]
  | addAll r tuples => exact (addAll_spec hm r tuples).1

/-- A scan stays as it is until it is called for its next row. -/
theorem scans_after (hm : m.Valid) (hc : m.scans[i]? = some c) (hcall : call.isNext i ≠ true) :
    (m.after call).scans[i]? = some c := by
  cases call with
  | scan r position value =>
    have hlt := (List.getElem?_eq_some_iff.mp hc).1
    rw [after, (scan_spec hm r position value).2, List.getElem?_append_left hlt, hc]
  | next j =>
    have hne : j ≠ i := by simpa [Call.isNext] using hcall
    cases hj : m.scans[j]? with
    | some d => rw [after, (next_spec hm hj).2.2, List.getElem?_set_ne hne, hc]
    | none => rw [after, next_of_none hj, hc]
  | addAll r tuples => rw [after, (addAll_spec hm r tuples).2.1, hc]

theorem isNext_iff : call.isNext i = true ↔ call = .next i := by
  cases call <;> simp [Call.isNext]

/-- The calls for the next row of a scan give what they would give one right after another. -/
theorem yields_eq (hm : m.Valid) (hc : m.scans[i]? = some c) (calls : List Call) :
    m.yields i calls = c.yields (calls.countP (Call.isNext i)) := by
  induction calls generalizing m c with
  | nil => rfl
  | cons call calls ih =>
    have hvalid := valid_after hm call
    rw [yields]
    by_cases hcall : call.isNext i = true
    · obtain ⟨hfirst, -, hscans⟩ := next_spec hm hc
      have hlt := (List.getElem?_eq_some_iff.mp hc).1
      have hafter : (m.after call).scans[i]? = some c.next.2 := by
        rw [isNext_iff.mp hcall, after, hscans, List.getElem?_set_self hlt]
      rw [if_pos hcall, List.countP_cons_of_pos hcall, Scan.yields, hfirst, ih hvalid hafter]
    · rw [if_neg hcall, List.countP_cons_of_neg hcall, ih hvalid (scans_after hm hc hcall)]

end Memory

/-! ## Scans of a session -/

theorem Extension.mem_valuesAt {x : Extension} {position : Nat} {value : Atom} {t : Tuple} :
    t ∈ x.valuesAt position value ↔ t ∈ x.rows ∧ t[position]? = some value := by
  simp [Extension.valuesAt]

namespace Session

variable {s : Session} {q : String} {r : Relation} {x : Extension}

/-- A scan of a relation, stored or derived, goes over the rows `x` that the relation has when it
begins. It is to yield those that have the value, in their order and each once; there are none if
the relation has no such slot. Call `i` for the next row gives row `i` of these, and nothing when
there are no more, whatever is requested in the meantime and whether it succeeds; a snapshot that is
taken when the scan begins finds the same rows later. The same holds where the scan shares its rows
with the relation and only keeps an index into them. -/
theorem scan_isolated (hs : s.Reached) (hr : s.relation q = .ok r) (hx : s.store.rows r = x)
    (position : Nat) (value : Atom) :
    (x.valuesAt position value).Sublist x.rows ∧ (x.valuesAt position value).Nodup ∧
    (∀ t, t ∈ x.valuesAt position value ↔ t ∈ x.rows ∧ t[position]? = some value) ∧
    (r.arity ≤ position → x.valuesAt position value = []) ∧
    (∀ n (es : List Event), (∀ e ∈ es, e.isNext n = true ∨ e.request.name? ≠ some n) →
      (s.step (.act (.scan q position value) (some n))).2.scanned n es =
        (List.range (es.countP (Event.isNext n))).map fun i =>
          .ok (.tuple? (x.valuesAt position value)[i]?)) ∧
    (∀ n (es : List Event), (∀ e ∈ es, e.request.name? ≠ some n) →
      ((s.step (.act (.snapshot q) (some n))).2.replay es).ask
        (.extensionValuesAt n position value) = .ok (.tuples (x.valuesAt position value))) ∧
    ∀ m : Memory, m.Valid → m.store = s.store → ∀ calls,
      (m.scan r position value).yields m.cursors.length calls =
        (List.range (calls.countP (Memory.Call.isNext m.cursors.length))).map fun i =>
          (x.valuesAt position value)[i]? := by
  subst hx
  have hrows := Store.ofArity_rows hs.valid.store (hs.valid.built hr)
  refine ⟨List.filter_sublist, hrows.valid.nodup.filter _, fun t => Extension.mem_valuesAt, ?_, ?_,
    ?_, ?_⟩
  · intro hposition
    refine List.eq_nil_iff_forall_not_mem.mpr fun t ht => ?_
    obtain ⟨ht, hvalue⟩ := Extension.mem_valuesAt.mp ht
    have hlt := (List.getElem?_eq_some_iff.mp hvalue).1
    rw [hrows.length ht] at hlt
    exact Nat.not_lt.mpr hposition hlt
  · intro n es hes
    rw [scanned_eq (scan_of_step hr position value n) hes, Scan.yields_eq, Scan.remaining_start,
      List.map_map]
    rfl
  · intro n es hes
    rw [ask, extension_replay (extension_snapshot hr n) hes]
    rfl
  · intro m hm hstore calls
    obtain ⟨hvalid, hscans⟩ := Memory.scan_spec hm r position value
    have hbegun : (m.scan r position value).scans[m.cursors.length]? =
        some (.start (m.store.rows r) position value) := by
      have hlength : m.scans.length = m.cursors.length := List.length_map _
      rw [hscans, ← hlength, List.getElem?_concat_length]
    rw [Memory.yields_eq hvalid hbegun, Scan.yields_eq, Scan.remaining_start, hstore]

/-- What happens while the children of Teresa are scanned: one more is added before the first call,
and one of a wrong length is refused after it. -/
def kinshipScanned : List Event :=
  [⟨.act (.addAll "parent" [[.text "teresa", .text "jan"]]) none, true⟩,
   ⟨.act (.next "children") none, true⟩,
   ⟨.act (.addAll "parent" [[.text "teresa", .text "ola"], [.text "teresa"]]) none, false⟩,
   ⟨.act (.next "children") none, false⟩]

theorem scan_isolated_kinshipParent :
    kinship.Reached ∧ kinship.relation "parent" = .ok (.base kinshipParent) ∧
      (kinship.step (.act (.scan "parent" 0 (.text "teresa")) (some "children"))).2.scanned
        "children" kinshipScanned =
          [.ok (.tuple? (some [.text "teresa", .text "piotr"])), .ok (.tuple? none)] ∧
      ((Memory.ofStore kinship.store).scan (.base kinshipParent) 0 (.text "teresa")).yields 0
        [.addAll (.base kinshipParent) [[.text "teresa", .text "jan"]], .next 0,
          .addAll (.base kinshipParent) [[.text "teresa"]], .next 0] =
          [some [.text "teresa", .text "piotr"], none] := by
  have hreached : kinship.Reached := reached_run .empty kinshipRequests
  have hrelation : kinship.relation "parent" = .ok (.base kinshipParent) := rfl
  have hrows : kinship.store.rows (.base kinshipParent) =
      ⟨2, [[.text "teresa", .text "piotr"], [.text "piotr", .text "ania"]]⟩ := rfl
  obtain ⟨-, -, -, -, hsession, -, hmemory⟩ :=
    scan_isolated hreached hrelation hrows 0 (.text "teresa")
  refine ⟨hreached, hrelation, hsession "children" kinshipScanned ?_,
    hmemory _ (Memory.valid_ofStore _) (Memory.store_ofStore _) _⟩
  simp [kinshipScanned, Event.isNext, Request.name?]

end Session

end RelationAlgebra
