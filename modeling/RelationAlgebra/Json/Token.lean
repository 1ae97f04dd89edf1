import RelationAlgebra.Decimal
import RelationAlgebra.Json.Text

/-!
# Tokens of JSON

A text of JSON is a row of tokens with blanks between them. Values that no dataset holds are kept
only as far as needed to skip them: every number other than a plain integer is one and the same
token, and so is every string that is no text.
-/

namespace RelationAlgebra.Json

/-- A token. -/
inductive Token where
  | openArray
  | closeArray
  | openObject
  | closeObject
  | comma
  | colon
  | null
  | bool (b : Bool)
  /-- A number written as an integer, other than `-0`. -/
  | int (i : Int)
  /-- Any other number. -/
  | fraction
  /-- A string, `none` if it is no text. -/
  | string (s : Option String)
deriving DecidableEq, Repr

/-- Whether a character may stand between tokens. -/
def isBlank (c : Char) : Bool := c = ' ' || c = '\n' || c = '\t' || c = '\r'

/-- The text without the blanks at its front. -/
def skipBlanks (cs : List Char) : List Char := cs.dropWhile isBlank

/-- The digits that a text begins with, and what follows them. -/
def digits (cs : List Char) : List Char × List Char :=
  (cs.takeWhile Char.isDigit, cs.dropWhile Char.isDigit)

/-- Reads past the point and the digits of a number, if there is a point; says whether there was. -/
def point? : List Char → Option (Bool × List Char)
  | '.' :: cs => if (digits cs).1.isEmpty then none else some (true, (digits cs).2)
  | cs => some (false, cs)

/-- The text without a sign at its front. -/
def unsigned : List Char → List Char
  | '+' :: cs | '-' :: cs => cs
  | cs => cs

/-- Reads past the exponent of a number, if there is one; says whether there was. -/
def exponent? : List Char → Option (Bool × List Char)
  | c :: cs =>
    if c = 'e' ∨ c = 'E' then
      let (ds, rest) := digits (unsigned cs)
      if ds.isEmpty then none else some (true, rest)
    else some (false, c :: cs)
  | [] => some (false, [])

/-- Whether digits may stand before the point: at least one, and no zero before another digit. -/
def isWhole : List Char → Bool
  | [] => false
  | ['0'] => true
  | c :: _ => c != '0'

/-- The token of a number with the given digits before its point; `decimal` says whether it has a
point or an exponent. -/
def numberToken (negative decimal : Bool) (whole : List Char) : Token :=
  let n := Nat.ofDigitChars 10 whole 0
  if decimal || (negative && n == 0) then .fraction
  else .int (if negative then -n else n)

/-- Reads a number without its sign. -/
def number? (negative : Bool) (cs : List Char) : Option (Token × List Char) :=
  let (whole, rest) := digits cs
  if isWhole whole then do
    let (pointed, rest) ← point? rest
    let (scaled, rest) ← exponent? rest
    return (numberToken negative (pointed || scaled) whole, rest)
  else none

/-- Reads the first token of a text that begins with one. -/
def Token.read? : List Char → Option (Token × List Char)
  | '[' :: cs => some (openArray, cs)
  | ']' :: cs => some (closeArray, cs)
  | '{' :: cs => some (openObject, cs)
  | '}' :: cs => some (closeObject, cs)
  | ',' :: cs => some (comma, cs)
  | ':' :: cs => some (colon, cs)
  | 'n' :: 'u' :: 'l' :: 'l' :: cs => some (null, cs)
  | 't' :: 'r' :: 'u' :: 'e' :: cs => some (bool true, cs)
  | 'f' :: 'a' :: 'l' :: 's' :: 'e' :: cs => some (bool false, cs)
  | '"' :: cs => (string? cs).map fun (s, rest) => (string s, rest)
  | '-' :: cs => number? true cs
  | cs => number? false cs

/-- How a token is written. A string that is no text is written as one such string, and a number
that is no integer as one such number. -/
def Token.write : Token → List Char
  | openArray => ['[']
  | closeArray => [']']
  | openObject => ['{']
  | closeObject => ['}']
  | comma => [',']
  | colon => [':']
  | null => ['n', 'u', 'l', 'l']
  | bool true => ['t', 'r', 'u', 'e']
  | bool false => ['f', 'a', 'l', 's', 'e']
  | int i => Decimal.write i
  | fraction => ['0', '.', '5']
  | string (some s) => quote s
  | string none => ['"', '\\', 'u', 'd', '8', '0', '0', '"']

theorem length_digits (cs : List Char) :
    (digits cs).1.length + (digits cs).2.length = cs.length := by
  rw [← List.length_append, digits, List.takeWhile_append_dropWhile]

theorem length_le_of_point? {cs rest : List Char} {b : Bool} (h : point? cs = some (b, rest)) :
    rest.length ≤ cs.length := by
  unfold point? at h
  split at h
  next cs =>
    split at h
    next => simp at h
    next =>
      simp at h
      have := length_digits cs
      simp [← h.2]; omega
  next => simp at h; simp [← h.2]

theorem length_unsigned_le (cs : List Char) : (unsigned cs).length ≤ cs.length := by
  unfold unsigned; split <;> simp

theorem length_le_of_exponent? {cs rest : List Char} {b : Bool}
    (h : exponent? cs = some (b, rest)) : rest.length ≤ cs.length := by
  unfold exponent? at h
  split at h
  next c cs =>
    split at h
    next =>
      dsimp only at h
      split at h
      next => simp at h
      next =>
        simp at h
        have := length_digits (unsigned cs)
        have := length_unsigned_le cs
        simp [← h.2]; omega
    next => simp at h; simp [← h.2]
  next => simp at h; simp [← h.2]

theorem length_lt_of_number? {b : Bool} {cs rest : List Char} {t : Token}
    (h : number? b cs = some (t, rest)) : rest.length < cs.length := by
  unfold number? at h
  dsimp only at h
  split at h
  next hw =>
    simp only [Option.bind_eq_bind, Option.bind_eq_some_iff] at h
    obtain ⟨⟨p, r₁⟩, hp, ⟨e, r₂⟩, he, h⟩ := h
    simp at h
    obtain ⟨_, rfl⟩ := h
    have hpos : 0 < (digits cs).1.length := by
      cases hd : (digits cs).1 with
      | nil => simp [hd, isWhole] at hw
      | cons => simp
    have h₀ := length_digits cs
    have h₁ := length_le_of_point? hp
    have h₂ : r₂.length ≤ r₁.length := length_le_of_exponent? he
    omega
  next => simp at h

theorem Token.length_lt_of_read? {cs rest : List Char} {t : Token}
    (h : Token.read? cs = some (t, rest)) : rest.length < cs.length := by
  unfold Token.read? at h
  split at h <;> try (simp at h; simp [← h.2]; done)
  next => simp at h; simp [← h.2]; omega
  next => simp at h; simp [← h.2]; omega
  next => simp at h; simp [← h.2]; omega
  next =>
    simp at h
    obtain ⟨s, hs, _⟩ := h
    have := length_lt_of_string? hs
    simp; omega
  next => have := length_lt_of_number? h; simp; omega
  next => exact length_lt_of_number? h

theorem length_skipBlanks_le (cs : List Char) : (skipBlanks cs).length ≤ cs.length :=
  (List.dropWhile_suffix isBlank).length_le

/-- The tokens of a text. -/
def tokens? (cs : List Char) : Option (List Token) :=
  if (skipBlanks cs).isEmpty then some []
  else
    match _h : Token.read? (skipBlanks cs) with
    | some (t, rest) => (tokens? rest).map (t :: ·)
    | none => none
termination_by cs.length
decreasing_by exact Nat.lt_of_lt_of_le (Token.length_lt_of_read? _h) (length_skipBlanks_le cs)

end RelationAlgebra.Json
