import Mathlib.Tactic.IntervalCases
import RelationAlgebra.Json.Text

/-!
# Strings of JSON

A string may be written in many ways. A piece of it is a character that stands for itself, a
character behind a backslash, or a 16-bit unit by its hexadecimal digits, of either case
(`Json.Piece.Spells`); a character is given by itself, by its own unit or by two surrogate units
(`Json.SpellsChar`). However a string is written, it is read as the text that its pieces stand for,
and as no text if they stand for none (`Json.string?_of_spells`). One of these ways is how strings
are written (`Json.spellsString_quote`).
-/

namespace RelationAlgebra.Json

/-- Whether a list is put together from parts, one for each of several things in turn. -/
inductive Spelled {α β : Type} (R : α → List β → Prop) : List α → List β → Prop where
  | nil : Spelled R [] []
  | cons {a : α} {as : List α} {p rest : List β} (ha : R a p) (has : Spelled R as rest) :
    Spelled R (a :: as) (p ++ rest)

theorem Spelled.map_flatMap {α β γ : Type} {R : α → List β → Prop} {f : γ → α} {g : γ → List β}
    (h : ∀ c, R (f c) (g c)) (cs : List γ) : Spelled R (cs.map f) (cs.flatMap g) := by
  induction cs with
  | nil => exact .nil
  | cons c cs ih => exact .cons (h c) ih

/-! ## Pieces -/

/-- Whether a character is the hexadecimal digit of value `n`, in lower or upper case. -/
def HexDigit (n : Nat) (c : Char) : Prop :=
  "0123456789abcdef".toList[n]? = some c ∨ "0123456789ABCDEF".toList[n]? = some c

/-- Whether characters are the four hexadecimal digits of a 16-bit unit. -/
inductive SpellsUnit : Nat → List Char → Prop where
  | mk {m n p q : Nat} {a b c d : Char} (ha : HexDigit m a) (hb : HexDigit n b) (hc : HexDigit p c)
    (hd : HexDigit q d) : SpellsUnit (((m * 16 + n) * 16 + p) * 16 + q) [a, b, c, d]

/-- The letters that may stand behind a backslash, but for `u`, and the characters that they stand
for. -/
def letters : List (Char × Char) :=
  [('"', '"'), ('\\', '\\'), ('/', '/'), ('b', '\x08'), ('f', '\x0c'), ('n', '\n'), ('r', '\r'),
    ('t', '\t')]

/-- Whether characters write a piece of a string. -/
inductive Piece.Spells : Piece → List Char → Prop where
  /-- A character that is no quote, no backslash and no control character stands for itself. -/
  | plain {c : Char} (hquote : c ≠ '"') (hbackslash : c ≠ '\\') (hcontrol : ¬ c < ' ') :
    (Piece.char c).Spells [c]
  | letter {e c : Char} (h : (e, c) ∈ letters) : (Piece.char c).Spells ['\\', e]
  | unit {n : Nat} {digits : List Char} (h : SpellsUnit n digits) :
    (Piece.unit n).Spells ('\\' :: 'u' :: digits)

theorem HexDigit.lt {n : Nat} {c : Char} (h : HexDigit n c) : n < 16 := by
  rcases h with h | h <;> exact (List.getElem?_eq_some_iff.mp h).1

theorem hexDigit?_of_hexDigit {n : Nat} {c : Char} (h : HexDigit n c) : hexDigit? c = some n := by
  have hlt := h.lt
  interval_cases n <;> rcases h with h | h <;> obtain rfl := Option.some.inj h <;> rfl

/-- A character is read as a hexadecimal digit only if it is one, of either case. -/
theorem hexDigit_of_hexDigit? {n : Nat} {c : Char} (h : hexDigit? c = some n) : HexDigit n c := by
  obtain ⟨k, hk⟩ : ∃ k, c.toNat = k := ⟨_, rfl⟩
  have hc : c = Char.ofNat k := by rw [← hk, Char.ofNat_toNat]
  unfold hexDigit? at h
  split_ifs at h with h09 haf hAF
  · obtain ⟨hlow, hhigh⟩ : 48 ≤ k ∧ k ≤ 57 := hk ▸ h09
    cases h
    rw [hk]
    subst hc
    interval_cases k <;> exact .inl rfl
  · obtain ⟨hlow, hhigh⟩ : 97 ≤ k ∧ k ≤ 102 := hk ▸ haf
    cases h
    rw [hk]
    subst hc
    interval_cases k <;> exact .inl rfl
  · obtain ⟨hlow, hhigh⟩ : 65 ≤ k ∧ k ≤ 70 := hk ▸ hAF
    cases h
    rw [hk]
    subst hc
    interval_cases k <;> exact .inr rfl

theorem hexDigit_digitChar {n : Nat} (h : n < 16) : HexDigit n (Nat.digitChar n) := by
  interval_cases n <;> exact Or.inl rfl

theorem SpellsUnit.lt {n : Nat} {digits : List Char} (h : SpellsUnit n digits) : n < 0x10000 := by
  cases h with
  | mk ha hb hc hd =>
    have := ha.lt
    have := hb.lt
    have := hc.lt
    have := hd.lt
    omega

theorem spellsUnit_of_unit? {a b c d : Char} {n : Nat} (h : unit? a b c d = some n) :
    SpellsUnit n [a, b, c, d] := by
  simp only [unit?, Option.bind_eq_bind, Option.bind_eq_some_iff] at h
  obtain ⟨m, hm, n, hn, p, hp, q, hq, h⟩ := h
  cases h
  exact .mk (hexDigit_of_hexDigit? hm) (hexDigit_of_hexDigit? hn) (hexDigit_of_hexDigit? hp)
    (hexDigit_of_hexDigit? hq)

/-- The unit of a control character is given by two zeros and two digits more. -/
theorem spellsUnit_control {n : Nat} (h : n < 256) :
    SpellsUnit n ['0', '0', Nat.digitChar (n / 16), Nat.digitChar (n % 16)] := by
  have hsum : ((0 * 16 + 0) * 16 + n / 16) * 16 + n % 16 = n := by omega
  have hunit := SpellsUnit.mk (Or.inl rfl : HexDigit 0 '0') (Or.inl rfl : HexDigit 0 '0')
    (hexDigit_digitChar (by omega : n / 16 < 16)) (hexDigit_digitChar (by omega : n % 16 < 16))
  rwa [hsum] at hunit

theorem mem_letters_of_escaped? {e c : Char} (h : escaped? e = some c) : (e, c) ∈ letters := by
  unfold escaped? at h
  split at h <;> first | contradiction | (cases h; decide)

/-- A letter behind a backslash is read as the character it stands for. -/
theorem pieces?_letter {e c : Char} (h : (e, c) ∈ letters) (cs : List Char) :
    pieces? ('\\' :: e :: cs) = do
      let (ps, rest) ← pieces? cs
      return (.char c :: ps, rest) := by
  have hletter : e ≠ 'u' ∧ escaped? e = some c := by
    simp only [letters, List.mem_cons, List.not_mem_nil, or_false, Prod.mk.injEq] at h
    rcases h with ⟨rfl, rfl⟩ | ⟨rfl, rfl⟩ | ⟨rfl, rfl⟩ | ⟨rfl, rfl⟩ | ⟨rfl, rfl⟩ | ⟨rfl, rfl⟩ |
      ⟨rfl, rfl⟩ | ⟨rfl, rfl⟩
    all_goals exact ⟨by decide, rfl⟩
  simp [pieces?, hletter]

/-- A character that needs no backslash is read as itself. -/
theorem pieces?_plain {c : Char} (hquote : c ≠ '"') (hbackslash : c ≠ '\\') (hc : ¬ c < ' ')
    (cs : List Char) :
    pieces? (c :: cs) = do
      let (ps, rest) ← pieces? cs
      return (.char c :: ps, rest) := by
  rw [pieces?]
  · simp [hc]
  · exact hquote
  · simp [hbackslash]
  · simp [hbackslash]

/-- However a piece is written, it is read as one piece, whatever follows it. -/
theorem pieces?_append {p : Piece} {part : List Char} (h : p.Spells part) (cs : List Char) :
    pieces? (part ++ cs) = do
      let (ps, rest) ← pieces? cs
      return (p :: ps, rest) := by
  cases h with
  | plain hquote hbackslash hcontrol => exact pieces?_plain hquote hbackslash hcontrol cs
  | letter h => exact pieces?_letter h cs
  | unit h =>
    cases h with
    | mk ha hb hc hd =>
      simp [pieces?, unit?, hexDigit?_of_hexDigit ha, hexDigit?_of_hexDigit hb,
        hexDigit?_of_hexDigit hc, hexDigit?_of_hexDigit hd]

/-- However the pieces of a string are written, they are read up to the closing quote. -/
theorem pieces?_of_spelled {ps : List Piece} {body : List Char}
    (h : Spelled Piece.Spells ps body) (rest : List Char) :
    pieces? (body ++ '"' :: rest) = some (ps, rest) := by
  induction h with
  | nil => rfl
  | cons ha _ ih => rw [List.append_assoc, pieces?_append ha, ih]; rfl

/-- What is read up to a quote is written in pieces. -/
theorem exists_spelled_of_pieces? {cs rest : List Char} {ps : List Piece}
    (h : pieces? cs = some (ps, rest)) :
    ∃ body, cs = body ++ '"' :: rest ∧ Spelled Piece.Spells ps body := by
  fun_induction pieces? cs generalizing ps rest with
  | case1 cs =>
    cases h
    exact ⟨[], rfl, .nil⟩
  | case2 a b c d cs ih =>
    simp only [Option.bind_eq_bind, Option.bind_eq_some_iff] at h
    obtain ⟨n, hn, ⟨ps, rest⟩, hcs, h⟩ := h
    cases h
    obtain ⟨body, rfl, hps⟩ := ih hcs
    exact ⟨'\\' :: 'u' :: a :: b :: c :: d :: body, rfl,
      .cons (p := [_, _, _, _, _, _]) (.unit (spellsUnit_of_unit? hn)) hps⟩
  | case3 e cs hu ih =>
    simp only [Option.bind_eq_bind, Option.bind_eq_some_iff] at h
    obtain ⟨c, hc, ⟨ps, rest⟩, hcs, h⟩ := h
    cases h
    obtain ⟨body, rfl, hps⟩ := ih hcs
    exact ⟨'\\' :: e :: body, rfl,
      .cons (p := [_, _]) (.letter (mem_letters_of_escaped? hc)) hps⟩
  | case4 c cs => cases h
  | case5 c cs hquote hunit hletter hc ih =>
    simp only [Option.bind_eq_bind, Option.bind_eq_some_iff] at h
    obtain ⟨⟨ps, rest⟩, hcs, h⟩ := h
    cases h
    obtain ⟨body, hbody, hps⟩ := ih hcs
    -- a backslash at the end is not followed by a quote
    have hbackslash : c ≠ '\\' := by
      intro hc
      cases cs with
      | nil => simp at hbody
      | cons e cs => exact hletter e cs hc rfl
    exact ⟨c :: body, by rw [hbody]; rfl, .cons (p := [_]) (.plain hquote hbackslash hc) hps⟩
  | case6 => cases h

/-! ## Characters -/

/-- Whether pieces give a character: the character, its number, or the surrogate units of its
number. -/
inductive SpellsChar (c : Char) : List Piece → Prop where
  | char : SpellsChar c [.char c]
  | unit : SpellsChar c [.unit c.toNat]
  | pair {m n : Nat} (hm : 0xD800 ≤ m ∧ m < 0xDC00) (hn : 0xDC00 ≤ n ∧ n < 0xE000)
    (hc : c.toNat = 0x10000 + (m - 0xD800) * 0x400 + (n - 0xDC00)) :
    SpellsChar c [.unit m, .unit n]

theorem isLeading_iff {n : Nat} : isLeading n = true ↔ 0xD800 ≤ n ∧ n < 0xDC00 := by
  simp [isLeading]

theorem isTrailing_iff {n : Nat} : isTrailing n = true ↔ 0xDC00 ≤ n ∧ n < 0xE000 := by
  simp [isTrailing]

/-- No character has the number of half of a pair. -/
theorem isLeading_or_isTrailing_toNat (c : Char) :
    (isLeading c.toNat || isTrailing c.toNat) = false := by
  have hvalid : c.toNat < 0xD800 ∨ 0xDFFF < c.toNat ∧ c.toNat < 0x110000 := c.valid
  rw [Bool.or_eq_false_iff, Bool.eq_false_iff, Bool.eq_false_iff, Ne, Ne, isLeading_iff,
    isTrailing_iff]
  omega

/-- A unit that is no surrogate is a character of its own. -/
theorem characters?_unit {n : Nat} (h : (isLeading n || isTrailing n) = false) (ps : List Piece) :
    characters? (.unit n :: ps) = (characters? ps).map (.ofNat n :: ·) := by
  have hboth := Bool.or_eq_false_iff.mp h
  rw [characters?.eq_def]
  split <;> simp_all

/-- A leading and a trailing surrogate are one character together. -/
theorem characters?_pair {m n : Nat} (hm : 0xD800 ≤ m ∧ m < 0xDC00) (hn : 0xDC00 ≤ n ∧ n < 0xE000)
    (ps : List Piece) :
    characters? (.unit m :: .unit n :: ps) = (characters? ps).map (paired m n :: ·) := by
  simp [characters?, isLeading_iff.mpr hm, isTrailing_iff.mpr hn]

/-- Any way to give a character is read as the character. -/
theorem characters?_append {c : Char} {part : List Piece} (h : SpellsChar c part)
    (ps : List Piece) : characters? (part ++ ps) = (characters? ps).map (c :: ·) := by
  cases h with
  | char => rfl
  | unit =>
    rw [List.singleton_append, characters?_unit (isLeading_or_isTrailing_toNat c),
      Char.ofNat_toNat]
  | pair hm hn hc =>
    rw [List.cons_append, List.singleton_append, characters?_pair hm hn, paired, ← hc,
      Char.ofNat_toNat]

theorem characters?_of_spelled {cs : List Char} {ps : List Piece}
    (h : Spelled SpellsChar cs ps) : characters? ps = some cs := by
  induction h with
  | nil => rfl
  | cons ha _ ih => rw [characters?_append ha, ih]; rfl

theorem toNat_ofNat {n : Nat} (h : n.isValidChar) : (Char.ofNat n).toNat = n := by
  rw [Char.ofNat, dif_pos h]
  exact UInt32.toNat_ofNatLT ..

theorem toNat_ofNat_unit {n : Nat} (hn : n < 0x10000)
    (h : (isLeading n || isTrailing n) = false) : (Char.ofNat n).toNat = n := by
  rw [Bool.or_eq_false_iff, Bool.eq_false_iff, Bool.eq_false_iff, Ne, Ne, isLeading_iff,
    isTrailing_iff] at h
  have hvalid : n.isValidChar := by
    unfold Nat.isValidChar
    omega
  exact toNat_ofNat hvalid

/-- A pair of surrogates stands for a code point above the 16-bit ones. -/
theorem toNat_paired {m n : Nat} (hm : 0xD800 ≤ m ∧ m < 0xDC00) (hn : 0xDC00 ≤ n ∧ n < 0xE000) :
    (paired m n).toNat = 0x10000 + (m - 0xD800) * 0x400 + (n - 0xDC00) := by
  have hvalid : (0x10000 + (m - 0xD800) * 0x400 + (n - 0xDC00)).isValidChar := by
    unfold Nat.isValidChar
    omega
  exact toNat_ofNat hvalid

/-- Pieces are read as the characters that they give, and as no others. -/
theorem spelled_of_characters? {ps : List Piece} {cs : List Char}
    (hunits : ∀ n, .unit n ∈ ps → n < 0x10000) (h : characters? ps = some cs) :
    Spelled SpellsChar cs ps := by
  fun_induction characters? ps generalizing cs with
  | case1 =>
    obtain rfl := Option.some.inj h
    exact .nil
  | case2 c ps ih =>
    obtain ⟨cs, hcs, rfl⟩ := Option.map_eq_some_iff.mp h
    exact .cons (p := [_]) .char (ih (fun n hn => hunits n (by simp [hn])) hcs)
  | case3 m n ps hpair ih =>
    obtain ⟨cs, hcs, rfl⟩ := Option.map_eq_some_iff.mp h
    obtain ⟨hm, hn⟩ := Bool.and_eq_true_iff.mp hpair
    have hm := isLeading_iff.mp hm
    have hn := isTrailing_iff.mp hn
    exact .cons (p := [_, _]) (.pair hm hn (toNat_paired hm hn))
      (ih (fun n hn => hunits n (by simp [hn])) hcs)
  | case4 => cases h
  | case5 m n ps _ hm ih =>
    obtain ⟨cs, hcs, rfl⟩ := Option.map_eq_some_iff.mp h
    have hm := Bool.eq_false_iff.mpr hm
    have hunit := SpellsChar.unit (c := .ofNat m)
    rw [toNat_ofNat_unit (hunits m (by simp)) hm] at hunit
    exact .cons (p := [_]) hunit (ih (fun n hn => hunits n (by simp_all)) hcs)
  | case6 => cases h
  | case7 n ps _ hn ih =>
    obtain ⟨cs, hcs, rfl⟩ := Option.map_eq_some_iff.mp h
    have hn := Bool.eq_false_iff.mpr hn
    have hunit := SpellsChar.unit (c := .ofNat n)
    rw [toNat_ofNat_unit (hunits n (by simp)) hn] at hunit
    exact .cons (p := [_]) hunit (ih (fun n hn => hunits n (by simp [hn])) hcs)

/-! ## Strings -/

/-- Whether characters, with quotes around them, write a string: a text that its pieces give, or no
text if they give none. -/
inductive SpellsString : Option String → List Char → Prop where
  | text {s : String} {ps : List Piece} {body : List Char} (hs : Spelled SpellsChar s.toList ps)
    (hps : Spelled Piece.Spells ps body) : SpellsString (some s) ('"' :: body ++ ['"'])
  | other {ps : List Piece} {body : List Char} (hno : ∀ cs, ¬ Spelled SpellsChar cs ps)
    (hps : Spelled Piece.Spells ps body) : SpellsString none ('"' :: body ++ ['"'])

theorem unit_lt_of_spelled {ps : List Piece} {body : List Char} (h : Spelled Piece.Spells ps body) :
    ∀ n, .unit n ∈ ps → n < 0x10000 := by
  induction h with
  | nil => simp
  | cons ha _ ih =>
    intro n hn
    rcases List.mem_cons.mp hn with rfl | hn
    · cases ha with
      | unit h => exact h.lt
    · exact ih n hn

/-- However a string is written, it is read as what it is. -/
theorem string?_of_spells {s : Option String} {cs : List Char} (h : SpellsString s cs)
    (rest : List Char) : ∃ tail, cs ++ rest = '"' :: tail ∧ string? tail = some (s, rest) := by
  cases h with
  | @text s ps body hs hps =>
    refine ⟨body ++ '"' :: rest, by simp, ?_⟩
    simp [string?, pieces?_of_spelled hps, characters?_of_spelled hs]
  | @other ps body hno hps =>
    have hnone : characters? ps = none := by
      rw [Option.eq_none_iff_forall_not_mem]
      exact fun cs hcs => hno cs (spelled_of_characters? (unit_lt_of_spelled hps) hcs)
    refine ⟨body ++ '"' :: rest, by simp, ?_⟩
    simp [string?, pieces?_of_spelled hps, hnone]

/-- What is read as a string is written in one of its ways. -/
theorem exists_spells_of_string? {s : Option String} {cs rest : List Char}
    (h : string? cs = some (s, rest)) : ∃ word, '"' :: cs = word ++ rest ∧ SpellsString s word := by
  simp only [string?, Option.bind_eq_bind, Option.bind_eq_some_iff] at h
  obtain ⟨⟨ps, rest⟩, hpieces, h⟩ := h
  cases h
  obtain ⟨body, rfl, hps⟩ := exists_spelled_of_pieces? hpieces
  refine ⟨'"' :: body ++ ['"'], by simp, ?_⟩
  cases hchars : characters? ps with
  | some cs =>
    have hs := spelled_of_characters? (unit_lt_of_spelled hps) hchars
    exact .text (by rwa [String.toList_ofList]) hps
  | none =>
    refine .other (fun cs hcs => ?_) hps
    rw [characters?_of_spelled hcs] at hchars
    contradiction

/-- The piece that a written character is split into. -/
def Piece.ofChar (c : Char) : Piece :=
  if c < ' ' ∧ c ∉ ['\x08', '\x0c', '\n', '\r', '\t'] then .unit c.toNat else .char c

theorem spellsChar_ofChar (c : Char) : SpellsChar c [Piece.ofChar c] := by
  unfold Piece.ofChar
  split
  · exact .unit
  · exact .char

/-- Every character is written as a piece that stands for it. -/
theorem Piece.spells_escape (c : Char) : (ofChar c).Spells (escape c) := by
  by_cases hletter : c ∈ ['"', '\\', '\x08', '\x0c', '\n', '\r', '\t']
  · simp only [List.mem_cons, List.not_mem_nil, or_false] at hletter
    rcases hletter with rfl | rfl | rfl | rfl | rfl | rfl | rfl
    all_goals exact .letter (by decide)
  · simp only [List.mem_cons, List.not_mem_nil, or_false, not_or] at hletter
    obtain ⟨hquote, hbackslash, hb, hf, hn, hr, ht⟩ := hletter
    by_cases hc : c < ' '
    · have hunit : ofChar c = .unit c.toNat := by simp [ofChar, hc, hb, hf, hn, hr, ht]
      have hlt : c.toNat < 32 := hc
      have hescape : escape c =
          ['\\', 'u', '0', '0', Nat.digitChar (c.toNat / 16), Nat.digitChar (c.toNat % 16)] := by
        simp [escape, hquote, hbackslash, hb, hf, hn, hr, ht, hc]
      rw [hunit, hescape]
      exact .unit (spellsUnit_control (by omega))
    · have hescape : escape c = [c] := by
        simp [escape, hquote, hbackslash, hb, hf, hn, hr, ht, hc]
      have hchar : ofChar c = .char c := by simp [ofChar, hc]
      rw [hescape, hchar]
      exact .plain hquote hbackslash hc

/-- The way in which texts are written is one of those in which they may be. -/
theorem spellsString_quote (s : String) : SpellsString (some s) (quote s) := by
  have hchars := Spelled.map_flatMap (f := id) spellsChar_ofChar s.toList
  rw [List.map_id, ← List.map_eq_flatMap] at hchars
  exact .text hchars (Spelled.map_flatMap Piece.spells_escape s.toList)

end RelationAlgebra.Json
