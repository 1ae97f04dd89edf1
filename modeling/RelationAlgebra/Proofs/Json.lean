import RelationAlgebra.Json
import RelationAlgebra.Proofs.Json.Token

/-!
# JSON is read back

Every value is read from any text that writes its tokens, with blanks where they may stand and its
strings in any spelling (`Json.parse?_of_spells`); its compact text is one of these
(`Json.parse?_write`). No assumption on the value is needed: the reader does not limit nesting, and
members of an object keep their order and may repeat.
-/

namespace RelationAlgebra.Json

/-- Induction on a value, with the items of an array and the members of an object at once. -/
@[elab_as_elim]
theorem induction {motive : Json → Prop}
    (null : motive .null)
    (bool : ∀ b, motive (.bool b))
    (int : ∀ i, motive (.int i))
    (fraction : motive .fraction)
    (string : ∀ s, motive (.string s))
    (array : ∀ items, (∀ v ∈ items, motive v) → motive (.array items))
    (object : ∀ members, (∀ m ∈ members, motive m.2) → motive (.object members))
    (v : Json) : motive v :=
  @Json.rec motive (fun items => ∀ v ∈ items, motive v)
    (fun members => ∀ m ∈ members, motive m.2) (fun m => motive m.2)
    null bool int fraction string array object
    (by simp) (fun _ _ hv hvs => List.forall_mem_cons.mpr ⟨hv, hvs⟩)
    (by simp) (fun _ _ hm hms => List.forall_mem_cons.mpr ⟨hm, hms⟩)
    (fun _ _ hv => hv) v

/-! ## Tokens of values -/

theorem itemTokens_cons (v : Json) (vs : List Json) :
    itemTokens (v :: vs) = v.tokens ++ vs.flatMap fun w => .comma :: w.tokens := by
  induction vs generalizing v with
  | nil => simp [itemTokens]
  | cons w ws ih => simp [itemTokens, ih]

theorem memberTokens_cons (m : Option String × Json) (ms : List (Option String × Json)) :
    memberTokens (m :: ms) = memberToken m ++ ms.flatMap fun n => .comma :: memberToken n := by
  induction ms generalizing m with
  | nil => simp [memberTokens]
  | cons n ns ih => simp [memberTokens, ih]

/-- A value has a first token, and it does not close an array. -/
theorem exists_tokens_eq_cons (v : Json) : ∃ t ts, v.tokens = t :: ts ∧ t ≠ .closeArray := by
  cases v <;> simp [tokens]

/-- Only a number has to stand apart from what follows it. -/
theorem isChain_cons_apart {t : Token} (h : t.isNumber = false) {ts : List Token} :
    (t :: ts).IsChain Token.Apart ↔ ts.IsChain Token.Apart := by
  simp [List.isChain_cons, Token.Apart, h]

/-- A token that is no number keeps what stands on its two sides apart. -/
theorem isChain_append_cons_apart {t : Token} (h : t.isNumber = false) {ss ts : List Token} :
    (ss ++ t :: ts).IsChain Token.Apart ↔ ss.IsChain Token.Apart ∧ ts.IsChain Token.Apart := by
  simp [List.isChain_append, isChain_cons_apart h, Token.Apart, h]

/-- Rows with commas between them: each row alone decides. -/
theorem isChain_append_flatMap_comma {α : Type} {f : α → List Token} {xs : List α}
    (h : ∀ x ∈ xs, (f x).IsChain Token.Apart) {ts : List Token} (hts : ts.IsChain Token.Apart) :
    (ts ++ xs.flatMap fun x => .comma :: f x).IsChain Token.Apart := by
  induction xs generalizing ts with
  | nil => simpa using hts
  | cons x xs ih =>
    rw [List.forall_mem_cons] at h
    rw [List.flatMap_cons, List.cons_append, isChain_append_cons_apart rfl]
    exact ⟨hts, ih h.2 h.1⟩

theorem isChain_memberToken {m : Option String × Json} (h : m.2.tokens.IsChain Token.Apart) :
    (memberToken m).IsChain Token.Apart := by
  rw [memberToken, isChain_cons_apart rfl, isChain_cons_apart rfl]
  exact h

/-- The numbers of a value stand apart. -/
theorem isChain_tokens (v : Json) : v.tokens.IsChain Token.Apart := by
  induction v using induction with
  | array items ih =>
    rw [tokens, isChain_cons_apart rfl, isChain_append_cons_apart rfl]
    refine ⟨?_, .nil⟩
    cases items with
    | nil => exact .nil
    | cons v vs =>
      rw [List.forall_mem_cons] at ih
      rw [itemTokens_cons]
      exact isChain_append_flatMap_comma ih.2 ih.1
  | object members ih =>
    rw [tokens, isChain_cons_apart rfl, isChain_append_cons_apart rfl]
    refine ⟨?_, .nil⟩
    cases members with
    | nil => exact .nil
    | cons m ms =>
      rw [List.forall_mem_cons] at ih
      rw [memberTokens_cons]
      exact isChain_append_flatMap_comma (fun n hn => isChain_memberToken (ih.2 n hn))
        (isChain_memberToken ih.1)
  | _ => simp [tokens]

/-! ## Reading -/

/-- Reading tokens that begin with those of `v` comes to `v` and what follows. -/
def ReadsBack (v : Json) : Prop :=
  ∀ stack ts, value? stack (v.tokens ++ ts) = continue? stack v ts

/-- Items that read back one by one are read to the end of their array. -/
theorem continue?_items (vs : List Json) (h : ∀ v ∈ vs, v.ReadsBack) (v : Json)
    (before : List Json) (stack : List Frame) (ts : List Token) :
    continue? (.items before :: stack) v
        ((vs.flatMap fun w => .comma :: w.tokens) ++ .closeArray :: ts) =
      continue? stack (.array (before.reverse ++ v :: vs)) ts := by
  induction vs generalizing v before with
  | nil => simp [continue?]
  | cons w ws ih =>
    rw [List.forall_mem_cons] at h
    simp [continue?, h.1 _ _, ih h.2]

theorem continue?_members (ms : List (Option String × Json)) (h : ∀ m ∈ ms, m.2.ReadsBack)
    (v : Json) (key : Option String) (before : List (Option String × Json)) (stack : List Frame)
    (ts : List Token) :
    continue? (.members before key :: stack) v
        ((ms.flatMap fun m => .comma :: memberToken m) ++ .closeObject :: ts) =
      continue? stack (.object (before.reverse ++ (key, v) :: ms)) ts := by
  induction ms generalizing v key before with
  | nil => simp [continue?]
  | cons m ms ih =>
    obtain ⟨next, w⟩ := m
    rw [List.forall_mem_cons] at h
    simp [continue?, memberToken, h.1 _ _, ih h.2]

/-- By induction on the value, the tokens of every value are read back. -/
theorem readsBack (v : Json) : v.ReadsBack := by
  induction v using induction with
  | array items ih =>
    intro stack ts
    cases items with
    | nil => simp [tokens, itemTokens, value?]
    | cons v vs =>
      rw [List.forall_mem_cons] at ih
      -- the first item does not begin with a closing bracket: this is not the empty array
      obtain ⟨t, us, hv, ht⟩ := v.exists_tokens_eq_cons
      have hopen : value? stack ((Json.array (v :: vs)).tokens ++ ts) =
          value? (.items [] :: stack)
            (v.tokens ++ ((vs.flatMap fun w => .comma :: w.tokens) ++ .closeArray :: ts)) := by
        simp [tokens, itemTokens_cons, hv, value?, ht]
      rw [hopen, ih.1, continue?_items vs ih.2]
      simp
  | object members ih =>
    intro stack ts
    cases members with
    | nil => simp [tokens, memberTokens, value?]
    | cons m ms =>
      obtain ⟨key, v⟩ := m
      rw [List.forall_mem_cons] at ih
      simp [tokens, memberTokens_cons, memberToken, value?, ih.1 _ _, continue?_members ms ih.2]
  | _ => intro stack ts; simp [tokens, value?]

/-! ## What is read -/

theorem itemTokens_append_singleton (vs : List Json) (v : Json) :
    itemTokens (vs ++ [v]) = (vs.flatMap fun w => w.tokens ++ [.comma]) ++ v.tokens := by
  induction vs with
  | nil => rfl
  | cons w ws ih => cases ws <;> simp_all [itemTokens]

theorem memberTokens_append_singleton (ms : List (Option String × Json))
    (m : Option String × Json) :
    memberTokens (ms ++ [m]) =
      (ms.flatMap fun n => memberToken n ++ [.comma]) ++ memberToken m := by
  induction ms with
  | nil => rfl
  | cons n ns ih => cases ns <;> simp_all [memberTokens]

/-- The tokens of an open array or object, up to where its next value begins. -/
def Frame.tokens : Frame → List Token
  | .items before => .openArray :: before.reverse.flatMap fun v => v.tokens ++ [.comma]
  | .members before key =>
    .openObject :: ((before.reverse.flatMap fun m => memberToken m ++ [.comma]) ++
      [.string key, .colon])

/-- The tokens of open arrays and objects, the outermost first. -/
def openTokens (stack : List Frame) : List Token := stack.reverse.flatMap Frame.tokens

@[simp]
theorem openTokens_nil : openTokens [] = [] := rfl

@[simp]
theorem openTokens_cons (f : Frame) (stack : List Frame) :
    openTokens (f :: stack) = openTokens stack ++ f.tokens := by
  simp [openTokens]

/-- The tokens of what is read are those that were open and those that were still to be read. -/
theorem tokens_of_value? :
    (∀ stack ts v, value? stack ts = some v → v.tokens = openTokens stack ++ ts) ∧
      ∀ stack w ts v, continue? stack w ts = some v →
        v.tokens = openTokens stack ++ (w.tokens ++ ts) := by
  apply value?.mutual_induct
    (fun stack ts => ∀ v, value? stack ts = some v → v.tokens = openTokens stack ++ ts)
    (fun stack w ts => ∀ v, continue? stack w ts = some v →
      v.tokens = openTokens stack ++ (w.tokens ++ ts))
  case case7 =>
    intro stack ts hne ih v h
    -- the next token does not close the array: it has a first item
    have hvalue : value? (.items [] :: stack) ts = some v := by simpa [value?, hne] using h
    simpa [Frame.tokens] using ih v hvalue
  case case10 =>
    intros
    simp_all [value?.eq_def]
  all_goals
    intros
    simp_all [value?, continue?, tokens, Frame.tokens, memberToken, itemTokens, memberTokens,
      itemTokens_append_singleton, memberTokens_append_singleton]

/-- Whether a text writes a value: its tokens in any spelling, with any blanks around them. -/
def Spells (v : Json) (text : String) : Prop :=
  ∃ body blanks, Spelled Token.Laid v.tokens body ∧ Blanks blanks ∧ text.toList = body ++ blanks

/-- A value is read from every text that writes it. -/
theorem parse?_of_spells {v : Json} {text : String} (h : v.Spells text) :
    parse? text = some v := by
  obtain ⟨body, blanks, hbody, hblanks, htext⟩ := h
  have hread : value? [] v.tokens = some v := by
    simpa [continue?] using readsBack v [] []
  simp [parse?, htext, tokens?_of_laid hbody hblanks (isChain_tokens v), ofTokens?, hread]

/-- A value is read only from the texts that write it. -/
theorem parse?_eq_some_iff {v : Json} {text : String} : parse? text = some v ↔ v.Spells text := by
  refine ⟨fun h => ?_, parse?_of_spells⟩
  obtain ⟨ts, hts, hv⟩ := Option.bind_eq_some_iff.mp h
  obtain ⟨body, blanks, hbody, hblanks, htext⟩ := exists_laid_of_tokens? hts
  have htokens := tokens_of_value?.1 [] ts v hv
  rw [openTokens_nil, List.nil_append] at htokens
  exact ⟨body, blanks, htokens ▸ hbody, hblanks, htext⟩

/-- The text that is written for a value is one of its spellings. -/
theorem spells_write (v : Json) : v.Spells v.write := by
  have hbody := Spelled.map_flatMap (f := id) Token.laid_write v.tokens
  rw [List.map_id] at hbody
  exact ⟨_, [], hbody, nofun, by simp [write]⟩

theorem parse?_write (v : Json) : parse? v.write = some v := parse?_of_spells (spells_write v)

end RelationAlgebra.Json
