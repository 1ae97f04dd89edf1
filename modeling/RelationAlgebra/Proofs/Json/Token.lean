import Mathlib.Data.List.Chain
import Mathlib.Data.List.TakeWhile
import Mathlib.Tactic.IntervalCases
import RelationAlgebra.Json.Token
import RelationAlgebra.Proofs.Json.Text

/-!
# Tokens of JSON are read back

A string may be written in many ways, and so may a number that is no integer; every other token has
just one form (`Json.Token.Spells`). A token that is no number says itself where it ends. A number
goes on as long as digits, a point or an exponent follow, so it is read back where the text stops or
goes on with something else (`Json.BreaksNumber`). Hence a row of tokens is read back however its
tokens are written and whatever blanks stand between them, if no number stands beside another
(`Json.tokens?_of_laid`).
-/

namespace RelationAlgebra.Json

/-! ## Numbers -/

/-- A text that does not go on with a number that ends before it. -/
def BreaksNumber (cs : List Char) : Prop :=
  ∀ c ∈ cs.head?, c.isDigit = false ∧ c ≠ '.' ∧ c ≠ 'e' ∧ c ≠ 'E'

/-- Whether characters are digits, at least one. -/
def SpellsDigits (ds : List Char) : Prop := ds ≠ [] ∧ ∀ c ∈ ds, c.isDigit

/-- Whether characters are a point with digits, or nothing; the flag says which. -/
inductive SpellsPoint : Bool → List Char → Prop where
  | none : SpellsPoint false []
  | digits {ds : List Char} (h : SpellsDigits ds) : SpellsPoint true ('.' :: ds)

/-- Whether characters are an exponent, or nothing; the flag says which. -/
inductive SpellsExponent : Bool → List Char → Prop where
  | none : SpellsExponent false []
  | digits {e : Char} {sign ds : List Char} (he : e = 'e' ∨ e = 'E')
    (hsign : sign ∈ [[], ['+'], ['-']]) (h : SpellsDigits ds) :
    SpellsExponent true (e :: (sign ++ ds))

/-- Whether characters write a number that is no integer: a negative zero, or a number with a point
or an exponent. -/
inductive SpellsFraction : List Char → Prop where
  | negativeZero : SpellsFraction ['-', '0']
  | decimal {sign point exponent : List Char} {pointed scaled : Bool} (n : Nat)
    (hsign : sign ∈ [[], ['-']]) (hpoint : SpellsPoint pointed point)
    (hexponent : SpellsExponent scaled exponent) (h : pointed || scaled) :
    SpellsFraction (sign ++ (Nat.toDigits 10 n ++ (point ++ exponent)))

theorem digits_append {ds rest : List Char} (hds : ∀ c ∈ ds, c.isDigit)
    (h : ∀ c ∈ rest.head?, c.isDigit = false) : digits (ds ++ rest) = (ds, rest) := by
  have hstop : rest.takeWhile Char.isDigit = [] ∧ rest.dropWhile Char.isDigit = rest := by
    cases rest with
    | nil => simp
    | cons c cs => simp [h c (by simp)]
  rw [digits, List.takeWhile_append_of_pos hds, List.dropWhile_append_of_pos hds, hstop.1, hstop.2,
    List.append_nil]

theorem SpellsPoint.no_digit {b : Bool} {point rest : List Char} (h : SpellsPoint b point)
    (hrest : ∀ c ∈ rest.head?, c.isDigit = false) :
    ∀ c ∈ (point ++ rest).head?, c.isDigit = false := by
  cases h with
  | none => exact hrest
  | digits => simp

theorem SpellsExponent.no_point {b : Bool} {exponent rest : List Char}
    (h : SpellsExponent b exponent) (hrest : BreaksNumber rest) :
    ∀ c ∈ (exponent ++ rest).head?, c.isDigit = false ∧ c ≠ '.' := by
  cases h with
  | none => exact fun c hc => ⟨(hrest c hc).1, (hrest c hc).2.1⟩
  | digits he => rcases he with rfl | rfl <;> simp

/-- A point with digits is read up to what is neither a digit nor a point. -/
theorem point?_append {b : Bool} {point rest : List Char} (h : SpellsPoint b point)
    (hrest : ∀ c ∈ rest.head?, c.isDigit = false ∧ c ≠ '.') :
    point? (point ++ rest) = some (b, rest) := by
  cases h with
  | none =>
    rw [List.nil_append]
    unfold Json.point?
    split
    next => exact absurd rfl (hrest '.' (by simp)).2
    next => rfl
  | digits h =>
    have hds := digits_append h.2 fun c hc => (hrest c hc).1
    simp [Json.point?, hds, h.1]

/-- A sign before digits is passed over, if there is one. -/
theorem unsigned_append {sign ds : List Char} (hsign : sign ∈ [[], ['+'], ['-']])
    (h : SpellsDigits ds) (rest : List Char) : unsigned (sign ++ ds ++ rest) = ds ++ rest := by
  simp only [List.mem_cons, List.not_mem_nil, or_false] at hsign
  rcases hsign with rfl | rfl | rfl
  · obtain ⟨d, ds, rfl⟩ := List.exists_cons_of_ne_nil h.1
    have hd := h.2 d List.mem_cons_self
    rw [List.nil_append, List.cons_append]
    -- digits do not begin with a sign
    unfold unsigned
    split
    next heq => obtain ⟨rfl, -⟩ := List.cons.inj heq; contradiction
    next heq => obtain ⟨rfl, -⟩ := List.cons.inj heq; contradiction
    next => rfl
  · rfl
  · rfl

/-- An exponent is read up to what breaks a number. -/
theorem exponent?_append {b : Bool} {exponent rest : List Char} (h : SpellsExponent b exponent)
    (hrest : BreaksNumber rest) : exponent? (exponent ++ rest) = some (b, rest) := by
  cases h with
  | none =>
    cases rest with
    | nil => rfl
    | cons c cs =>
      obtain ⟨-, -, he, hE⟩ := hrest c (by simp)
      simp [Json.exponent?, he, hE]
  | @digits e sign ds he hsign h =>
    have hds := digits_append h.2 fun c hc => (hrest c hc).1
    rw [List.cons_append, Json.exponent?, if_pos he, unsigned_append hsign h, hds]
    simp [h.1]

theorem isDigit_of_mem_toDigits {n : Nat} : ∀ c ∈ Nat.toDigits 10 n, c.isDigit :=
  fun _ hc => Nat.isDigit_of_mem_toDigits (by decide) (by decide) hc

/-- Every number is written with one digit at least. -/
theorem exists_toDigits_eq_cons (n : Nat) : ∃ d ds, Nat.toDigits 10 n = d :: ds ∧ d.isDigit := by
  obtain ⟨d, ds, hds⟩ := List.exists_cons_of_ne_nil (Nat.toDigits_ne_nil (n := n) (b := 10))
  exact ⟨d, ds, hds, isDigit_of_mem_toDigits (n := n) d (by simp [hds])⟩

theorem head?_toDigits_ne_zero {n : Nat} (h : 0 < n) : (Nat.toDigits 10 n).head? ≠ some '0' := by
  induction n using Nat.strongRecOn with
  | ind n ih =>
    by_cases hlt : n < 10
    · interval_cases n <;> decide
    · rw [Nat.toDigits_of_base_le (by decide) (by omega),
        List.head?_append_of_ne_nil _ Nat.toDigits_ne_nil]
      exact ih (n / 10) (by omega) (by omega)

/-- Digits are written without a leading zero. -/
theorem isWhole_toDigits (n : Nat) : isWhole (Nat.toDigits 10 n) = true := by
  rcases Nat.eq_zero_or_pos n with rfl | hpos
  · decide
  · have hhead := head?_toDigits_ne_zero hpos
    obtain ⟨d, ds, hds, -⟩ := exists_toDigits_eq_cons n
    have hd : d ≠ '0' := by simpa [hds] using hhead
    simp [hds, isWhole, hd]

/-- A number is read with its point and its exponent, if they are there, up to what breaks it. -/
theorem number?_append (negative : Bool) (n : Nat) {pointed scaled : Bool}
    {point exponent rest : List Char} (hpoint : SpellsPoint pointed point)
    (hexponent : SpellsExponent scaled exponent) (hrest : BreaksNumber rest) :
    number? negative (Nat.toDigits 10 n ++ (point ++ (exponent ++ rest))) =
      some (numberToken negative (pointed || scaled) (Nat.toDigits 10 n), rest) := by
  have hafter := hexponent.no_point hrest
  have hdigits := digits_append (isDigit_of_mem_toDigits (n := n))
    (hpoint.no_digit fun c hc => (hafter c hc).1)
  simp [number?, hdigits, isWhole_toDigits, point?_append hpoint hafter,
    exponent?_append hexponent hrest]

theorem digitChar_of_isDigit {c : Char} (h : c.isDigit) :
    c.toNat - '0'.toNat < 10 ∧ Nat.digitChar (c.toNat - '0'.toNat) = c := by
  obtain ⟨k, hk⟩ : ∃ k, c.toNat = k := ⟨_, rfl⟩
  have hc : c = Char.ofNat k := by rw [← hk, Char.ofNat_toNat]
  obtain ⟨hlow, hhigh⟩ : 48 ≤ k ∧ k ≤ 57 := by
    simpa [Char.isDigit, UInt32.le_iff_toNat_le, ← hk] using h
  rw [hk]
  subst hc
  interval_cases k <;> decide

/-- Digits without a leading zero are the ones that their value is written with. -/
theorem toDigits_ofDigitChars {ds : List Char} (hds : ∀ c ∈ ds, c.isDigit)
    (h : isWhole ds = true) : Nat.toDigits 10 (Nat.ofDigitChars 10 ds 0) = ds := by
  induction ds using List.reverseRecOn with
  | nil => simp [isWhole] at h
  | append_singleton ds d ih =>
    obtain ⟨hlt, hd⟩ := digitChar_of_isDigit (hds d (by simp))
    rw [Nat.ofDigitChars_append, Nat.ofDigitChars_cons, Nat.ofDigitChars_nil]
    generalize d.toNat - '0'.toNat = value at hlt hd
    cases ds with
    | nil => simp [Nat.toDigits_of_lt_base hlt, hd]
    | cons e ds =>
      have he : e ≠ '0' := by
        rintro rfl
        cases ds <;> simp [isWhole] at h
      have hwhole : isWhole (e :: ds) = true := by simp [isWhole, he]
      specialize ih (fun c hc => hds c (List.mem_append_left _ hc)) hwhole
      have hpos : Nat.ofDigitChars 10 (e :: ds) 0 ≠ 0 := by
        intro hzero
        rw [hzero] at ih
        exact he (List.cons.inj ih).1.symm
      rw [Nat.toDigits_of_base_le (by decide) (by omega), Nat.mul_add_div (by decide),
        Nat.div_eq_of_lt hlt, Nat.add_zero, ih, Nat.mul_add_mod, Nat.mod_eq_of_lt hlt, hd]

/-! ### What is read as a number -/

/-- What is taken are digits, and the rest follows them. -/
theorem digits_spec (cs : List Char) :
    cs = (digits cs).1 ++ (digits cs).2 ∧ ∀ c ∈ (digits cs).1, c.isDigit :=
  ⟨List.takeWhile_append_dropWhile.symm, fun _ hc => List.mem_takeWhile_imp hc⟩

theorem exists_of_point? {cs rest : List Char} {b : Bool} (h : point? cs = some (b, rest)) :
    ∃ point, cs = point ++ rest ∧ SpellsPoint b point := by
  unfold Json.point? at h
  split at h
  next cs =>
    split_ifs at h with hne
    cases h
    obtain ⟨hcs, hdigits⟩ := digits_spec cs
    exact ⟨'.' :: (digits cs).1, congrArg _ hcs, .digits ⟨by simpa using hne, hdigits⟩⟩
  next =>
    cases h
    exact ⟨[], rfl, .none⟩

theorem exists_sign (cs : List Char) :
    ∃ sign ∈ [[], ['+'], ['-']], cs = sign ++ unsigned cs := by
  unfold unsigned
  split
  next => exact ⟨['+'], by simp, rfl⟩
  next => exact ⟨['-'], by simp, rfl⟩
  next => exact ⟨[], by simp, rfl⟩

theorem exists_of_exponent? {cs rest : List Char} {b : Bool}
    (h : exponent? cs = some (b, rest)) :
    ∃ exponent, cs = exponent ++ rest ∧ SpellsExponent b exponent := by
  unfold Json.exponent? at h
  split at h
  next c cs =>
    dsimp only at h
    split_ifs at h with he hne
    · cases h
      obtain ⟨sign, hsign, hcs⟩ := exists_sign cs
      obtain ⟨hrest, hdigits⟩ := digits_spec (unsigned cs)
      refine ⟨c :: (sign ++ (digits (unsigned cs)).1), ?_,
        .digits he hsign ⟨by simpa using hne, hdigits⟩⟩
      rw [List.cons_append, List.append_assoc, ← hrest, ← hcs]
    · cases h
      exact ⟨[], rfl, .none⟩
  next =>
    cases h
    exact ⟨[], rfl, .none⟩

/-- What is read as a number is the digits of one, a point and an exponent. -/
theorem exists_of_number? {negative : Bool} {cs rest : List Char} {t : Token}
    (h : number? negative cs = some (t, rest)) :
    ∃ n pointed scaled point exponent, cs = Nat.toDigits 10 n ++ (point ++ (exponent ++ rest)) ∧
      SpellsPoint pointed point ∧ SpellsExponent scaled exponent ∧
      t = numberToken negative (pointed || scaled) (Nat.toDigits 10 n) := by
  unfold number? at h
  dsimp only at h
  split_ifs at h with hwhole
  simp only [Option.bind_eq_bind, Option.bind_eq_some_iff] at h
  obtain ⟨⟨pointed, r₁⟩, hp, ⟨scaled, r₂⟩, he, h⟩ := h
  cases h
  obtain ⟨point, hpoint, hpspells⟩ := exists_of_point? hp
  obtain ⟨exponent, hexponent, hespells⟩ := exists_of_exponent? he
  obtain ⟨hcs, hdigits⟩ := digits_spec cs
  have hds := toDigits_ofDigitChars hdigits hwhole
  refine ⟨_, pointed, scaled, point, exponent, ?_, hpspells, hespells, by rw [hds]⟩
  rw [hds, ← hexponent, ← hpoint, ← hcs]

/-! ## Single tokens -/

/-- Whether a token is a number. -/
def Token.isNumber : Token → Bool
  | int _ | fraction => true
  | _ => false

theorem read?_digit {c : Char} (hc : c.isDigit) (cs : List Char) :
    Token.read? (c :: cs) = number? false (c :: cs) := by
  unfold Token.read?
  -- every other form of a token begins with a character that is no digit
  split <;> first | rfl | simp_all

theorem read?_toDigits (n : Nat) (cs : List Char) :
    Token.read? (Nat.toDigits 10 n ++ cs) = number? false (Nat.toDigits 10 n ++ cs) := by
  obtain ⟨d, ds, hds, hd⟩ := exists_toDigits_eq_cons n
  rw [hds, List.cons_append, read?_digit hd]

/-- An integer is read back where something follows that breaks it. -/
theorem read?_int (i : Int) {rest : List Char} (h : BreaksNumber rest) :
    Token.read? (Decimal.write i ++ rest) = some (.int i, rest) := by
  have hnumber (negative : Bool) (n : Nat) := number?_append negative n .none .none h
  simp only [List.nil_append] at hnumber
  cases i with
  | ofNat n =>
    rw [Decimal.write, read?_toDigits, hnumber]
    simp [numberToken, Nat.ofDigitChars_toDigits]
  | negSucc n =>
    simp [Decimal.write, Token.read?, hnumber, numberToken, Nat.ofDigitChars_toDigits,
      Int.negSucc_eq]

/-- A number that is no integer is read as a token of its own, without its value. -/
theorem read?_fraction {word rest : List Char} (hword : SpellsFraction word)
    (h : BreaksNumber rest) : Token.read? (word ++ rest) = some (.fraction, rest) := by
  cases hword with
  | negativeZero => exact number?_append true 0 .none .none h
  | @decimal sign point exponent pointed scaled n hsign hpoint hexponent hdecimal =>
    have hnumber (negative : Bool) := number?_append negative n hpoint hexponent h
    simp only [numberToken, hdecimal, Bool.true_or, if_true] at hnumber
    simp only [List.append_assoc]
    simp only [List.mem_cons, List.not_mem_nil, or_false] at hsign
    rcases hsign with rfl | rfl
    · rw [List.nil_append, read?_toDigits, hnumber]
    · exact hnumber true

/-- Whether characters write a token. -/
def Token.Spells : Token → List Char → Prop
  | .string s, word => SpellsString s word
  | .fraction, word => SpellsFraction word
  | t, word => word = t.write

/-- However a token is written, it is read. -/
theorem Token.read?_of_spells {t : Token} {word rest : List Char} (hword : t.Spells word)
    (h : t.isNumber → BreaksNumber rest) : Token.read? (word ++ rest) = some (t, rest) := by
  cases t with
  | int i =>
    subst hword
    exact read?_int i (h rfl)
  | fraction => exact read?_fraction hword (h rfl)
  | string s =>
    obtain ⟨tail, htail, hs⟩ := string?_of_spells hword rest
    rw [htail, Token.read?, hs]
    rfl
  | bool b => subst hword; cases b <;> rfl
  | _ => subst hword; rfl

/-- The way in which tokens are written is one of those in which they may be. -/
theorem Token.spells_write (t : Token) : t.Spells t.write := by
  cases t with
  | string s =>
    cases s with
    | some s => exact spellsString_quote s
    | none =>
      have hunit : SpellsUnit 0xD800 ['d', '8', '0', '0'] :=
        .mk (m := 13) (n := 8) (p := 0) (q := 0) (.inl rfl) (.inl rfl) (.inl rfl) (.inl rfl)
      have hpieces : Spelled Piece.Spells [.unit 0xD800] ['\\', 'u', 'd', '8', '0', '0'] :=
        .cons (Piece.Spells.unit hunit) .nil
      refine .other (fun cs hcs => ?_) hpieces
      have hread := characters?_of_spelled hcs
      contradiction
  | fraction =>
    have hfive : SpellsDigits ['5'] := ⟨by simp, List.forall_mem_singleton.mpr (by decide)⟩
    have hhalf : SpellsFraction ([] ++ (Nat.toDigits 10 0 ++ (['.', '5'] ++ []))) :=
      .decimal 0 (by simp) (.digits hfive) .none rfl
    exact hhalf
  | _ => rfl

theorem isBlank_of_isDigit {c : Char} (h : c.isDigit) : isBlank c = false := by
  simp only [isBlank, Bool.or_eq_false_iff, decide_eq_false_iff_not, and_assoc]
  refine ⟨?_, ?_, ?_, ?_⟩ <;> rintro rfl <;> contradiction

/-- The token of a number is written with its sign and digits. -/
theorem exists_spells_of_number? {negative : Bool} {cs rest : List Char} {t : Token}
    (h : number? negative cs = some (t, rest)) :
    ∃ word, (if negative then ['-'] else []) ++ cs = word ++ rest ∧ t.Spells word := by
  obtain ⟨n, pointed, scaled, point, exponent, rfl, hpoint, hexponent, rfl⟩ := exists_of_number? h
  have hsign : (if negative then ['-'] else []) ∈ [[], ['-']] := by cases negative <;> simp
  cases hdecimal : pointed || scaled with
  | true =>
    refine ⟨_, ?_, .decimal n hsign hpoint hexponent hdecimal⟩
    simp only [List.append_assoc]
  | false =>
    obtain ⟨rfl, rfl⟩ := Bool.or_eq_false_iff.mp hdecimal
    cases hpoint
    cases hexponent
    refine ⟨(if negative then ['-'] else []) ++ Nat.toDigits 10 n, by simp, ?_⟩
    cases negative with
    | false =>
      have htoken : numberToken false false (Nat.toDigits 10 n) = .int n := by
        simp [numberToken, Nat.ofDigitChars_toDigits]
      exact htoken ▸ rfl
    | true =>
      cases n with
      | zero => exact .negativeZero
      | succ n =>
        have htoken : numberToken true false (Nat.toDigits 10 (n + 1)) = .int (.negSucc n) := by
          simp [numberToken, Nat.ofDigitChars_toDigits, Int.negSucc_eq]
        exact htoken ▸ rfl

/-- What is read as a token is written in one of its ways. -/
theorem Token.exists_spells_of_read? {cs rest : List Char} {t : Token}
    (h : Token.read? cs = some (t, rest)) : ∃ word, cs = word ++ rest ∧ t.Spells word := by
  unfold Token.read? at h
  split at h
  case h_10 cs =>
    obtain ⟨⟨s, rest⟩, hs, h⟩ := Option.map_eq_some_iff.mp h
    cases h
    exact exists_spells_of_string? hs
  case h_11 => exact exists_spells_of_number? h
  case h_12 => exact exists_spells_of_number? h
  all_goals
    cases h
    exact ⟨_, rfl, rfl⟩

/-- A token does not begin with a blank, and unless it is a number it ends a number before it. -/
theorem Token.exists_head {t : Token} {word : List Char} (h : t.Spells word) :
    ∃ c cs, word = c :: cs ∧ isBlank c = false ∧
      (t.isNumber = false → ∀ rest, BreaksNumber (c :: rest)) := by
  have hdigits (n : Nat) (cs : List Char) :
      ∃ d ds, Nat.toDigits 10 n ++ cs = d :: ds ∧ isBlank d = false := by
    obtain ⟨d, ds, hds, hd⟩ := exists_toDigits_eq_cons n
    exact ⟨d, ds ++ cs, by rw [hds, List.cons_append], isBlank_of_isDigit hd⟩
  cases t with
  | int i =>
    subst h
    cases i with
    | ofNat n =>
      obtain ⟨d, ds, hds, hd⟩ := hdigits n []
      exact ⟨d, ds, by simpa [Token.write, Decimal.write] using hds, hd, by simp [isNumber]⟩
    | negSucc n => exact ⟨'-', _, rfl, rfl, by simp [isNumber]⟩
  | fraction =>
    cases h with
    | negativeZero => exact ⟨'-', _, rfl, rfl, by simp [isNumber]⟩
    | decimal n hsign =>
      simp only [List.mem_cons, List.not_mem_nil, or_false] at hsign
      rcases hsign with rfl | rfl
      · obtain ⟨d, ds, hds, hd⟩ := hdigits n _
        exact ⟨d, ds, hds, hd, by simp [isNumber]⟩
      · exact ⟨'-', _, rfl, rfl, by simp [isNumber]⟩
  | string s => cases h <;> exact ⟨'"', _, rfl, rfl, fun _ _ => by simp [BreaksNumber]⟩
  | bool b => subst h; cases b <;> exact ⟨_, _, rfl, rfl, fun _ _ => by simp [BreaksNumber]⟩
  | _ => subst h; exact ⟨_, _, rfl, rfl, fun _ _ => by simp [BreaksNumber]⟩

/-! ## Rows of tokens -/

/-- Whether characters are all blanks. -/
def Blanks (cs : List Char) : Prop := ∀ c ∈ cs, c ∈ [' ', '\n', '\t', '\r']

/-- Whether characters are a token with blanks before it. -/
inductive Token.Laid (t : Token) : List Char → Prop where
  | mk {blanks word : List Char} (hblanks : Blanks blanks) (hword : t.Spells word) :
    t.Laid (blanks ++ word)

theorem skipBlanks_append {blanks : List Char} (h : Blanks blanks) (cs : List Char) :
    skipBlanks (blanks ++ cs) = skipBlanks cs := by
  refine List.dropWhile_append_of_pos fun c hc => ?_
  simpa [isBlank, or_assoc] using h c hc

theorem skipBlanks_cons {c : Char} (h : isBlank c = false) (cs : List Char) :
    skipBlanks (c :: cs) = c :: cs := by
  simp [skipBlanks, h]

theorem Blanks.breaksNumber {blanks : List Char} (h : Blanks blanks) (hne : blanks ≠ [])
    (cs : List Char) : BreaksNumber (blanks ++ cs) := by
  obtain ⟨c, blanks, rfl⟩ := List.exists_cons_of_ne_nil hne
  have hc := h c List.mem_cons_self
  simp only [List.mem_cons, List.not_mem_nil, or_false] at hc
  rcases hc with rfl | rfl | rfl | rfl <;> simp [BreaksNumber]

/-- A token that is no number, and blanks before any token, end a number. -/
theorem Token.Laid.breaksNumber {t : Token} {part : List Char} (h : t.Laid part)
    (hnumber : t.isNumber = false) (rest : List Char) : BreaksNumber (part ++ rest) := by
  cases h with
  | @mk blanks word hblanks hword =>
    rw [List.append_assoc]
    by_cases hnil : blanks = []
    · obtain ⟨c, cs, rfl, -, hbreaks⟩ := exists_head hword
      rw [hnil]
      exact hbreaks hnumber _
    · exact hblanks.breaksNumber hnil _

theorem tokens?_of_read? {cs rest : List Char} {t : Token}
    (h : Token.read? (skipBlanks cs) = some (t, rest)) :
    tokens? cs = (tokens? rest).map (t :: ·) := by
  have hne : (skipBlanks cs).isEmpty = false := by
    have := Token.length_lt_of_read? h
    cases hcs : skipBlanks cs with
    | nil => simp [hcs] at this
    | cons => rfl
  rw [tokens?]
  simp only [hne, Bool.false_eq_true, if_false]
  split
  next hread => rw [h] at hread; cases hread; rfl
  next hread => rw [h] at hread; contradiction

/-- A token is read off the text in which it is laid, whatever follows that breaks it. -/
theorem tokens?_append {t : Token} {part rest : List Char} (h : t.Laid part)
    (hrest : t.isNumber → BreaksNumber rest) :
    tokens? (part ++ rest) = (tokens? rest).map (t :: ·) := by
  cases h with
  | mk hblanks hword =>
    obtain ⟨c, cs, hc, hblank, -⟩ := Token.exists_head hword
    refine tokens?_of_read? ?_
    rw [List.append_assoc, skipBlanks_append hblanks, ← Token.read?_of_spells hword hrest, hc,
      List.cons_append, skipBlanks_cons hblank]

theorem tokens?_blanks {blanks : List Char} (h : Blanks blanks) : tokens? blanks = some [] := by
  have hskip := skipBlanks_append h []
  rw [List.append_nil] at hskip
  rw [tokens?, if_pos (by rw [hskip]; rfl)]

/-- No number may stand beside another: their digits would run together. -/
def Token.Apart (s t : Token) : Prop := s.isNumber = true → t.isNumber = false

/-- A row of tokens in which no two numbers stand beside each other is read, however it is laid
out. -/
theorem tokens?_of_laid {ts : List Token} {body blanks : List Char}
    (hbody : Spelled Token.Laid ts body) (hblanks : Blanks blanks) (h : ts.IsChain Token.Apart) :
    tokens? (body ++ blanks) = some ts := by
  induction hbody with
  | nil => exact tokens?_blanks hblanks
  | @cons t ts part body ht hts ih =>
    obtain ⟨hfirst, hrest⟩ := List.isChain_cons.mp h
    have hbreaks (hnumber : t.isNumber) : BreaksNumber (body ++ blanks) := by
      cases hts with
      | nil =>
        by_cases hnil : blanks = []
        · simp [hnil, BreaksNumber]
        · simpa using hblanks.breaksNumber hnil []
      | cons hu =>
        rw [List.append_assoc]
        exact hu.breaksNumber (hfirst _ rfl hnumber) _
    rw [List.append_assoc, tokens?_append ht hbreaks, ih hrest]
    rfl

/-- What is skipped are blanks. -/
theorem skipBlanks_spec (cs : List Char) :
    ∃ blanks, Blanks blanks ∧ cs = blanks ++ skipBlanks cs := by
  refine ⟨cs.takeWhile isBlank, fun c hc => ?_, List.takeWhile_append_dropWhile.symm⟩
  simpa [isBlank, or_assoc] using List.mem_takeWhile_imp hc

/-- Tokens are read only where they are written. -/
theorem exists_laid_of_tokens? {cs : List Char} {ts : List Token} (h : tokens? cs = some ts) :
    ∃ body blanks, Spelled Token.Laid ts body ∧ Blanks blanks ∧ cs = body ++ blanks := by
  fun_induction tokens? cs generalizing ts with
  | case1 cs hempty =>
    cases h
    obtain ⟨blanks, hblanks, hcs⟩ := skipBlanks_spec cs
    rw [List.isEmpty_iff.mp hempty, List.append_nil] at hcs
    exact ⟨[], blanks, .nil, hblanks, hcs⟩
  | case2 cs _ t rest hread ih =>
    obtain ⟨ts, hts, rfl⟩ := Option.map_eq_some_iff.mp h
    obtain ⟨body, after, hbody, hafter, rfl⟩ := ih hts
    obtain ⟨blanks, hblanks, hcs⟩ := skipBlanks_spec cs
    obtain ⟨word, hrest, hword⟩ := Token.exists_spells_of_read? hread
    refine ⟨blanks ++ word ++ body, after, .cons (.mk hblanks hword) hbody, hafter, ?_⟩
    rw [hcs, hrest]
    simp only [List.append_assoc]
  | case3 => contradiction

theorem Token.laid_write (t : Token) : t.Laid t.write :=
  have hlaid : t.Laid ([] ++ t.write) := .mk nofun t.spells_write
  hlaid

end RelationAlgebra.Json
