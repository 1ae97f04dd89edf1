/-!
# Strings of JSON

How the characters of a string are written between quotes, and how they are read back. Reading has
two stages. First the written string is split into pieces, each a character or a 16-bit unit given
by a `\u` escape; then units are put together into characters. A surrogate unit that has no partner
stands for no character, and a string that holds one is no text.
-/

namespace RelationAlgebra.Json

/-- The value of a hexadecimal digit, of either case. -/
def hexDigit? (c : Char) : Option Nat :=
  if '0' ≤ c ∧ c ≤ '9' then some (c.toNat - '0'.toNat)
  else if 'a' ≤ c ∧ c ≤ 'f' then some (c.toNat - 'a'.toNat + 10)
  else if 'A' ≤ c ∧ c ≤ 'F' then some (c.toNat - 'A'.toNat + 10)
  else none

/-- The unit that four hexadecimal digits give. -/
def unit? (a b c d : Char) : Option Nat := do
  return (((← hexDigit? a) * 16 + (← hexDigit? b)) * 16 + (← hexDigit? c)) * 16 + (← hexDigit? d)

/-- The character that a backslash and a letter other than `u` stand for. -/
def escaped? : Char → Option Char
  | '"' => some '"'
  | '\\' => some '\\'
  | '/' => some '/'
  | 'b' => some '\x08'
  | 'f' => some '\x0c'
  | 'n' => some '\n'
  | 'r' => some '\r'
  | 't' => some '\t'
  | _ => none

/-- A part of a written string. -/
inductive Piece where
  /-- A character, plain or after a backslash. -/
  | char (c : Char)
  /-- A 16-bit unit, from a `\u` escape. -/
  | unit (n : Nat)
deriving DecidableEq, Repr

/-- The pieces of a written string up to its closing quote, and what follows the quote. -/
def pieces? : List Char → Option (List Piece × List Char)
  | '"' :: cs => some ([], cs)
  | '\\' :: 'u' :: a :: b :: c :: d :: cs => do
    let n ← unit? a b c d
    let (ps, rest) ← pieces? cs
    return (.unit n :: ps, rest)
  | '\\' :: e :: cs => do
    let c ← escaped? e
    let (ps, rest) ← pieces? cs
    return (.char c :: ps, rest)
  | c :: cs =>
    if c < ' ' then none else do
      let (ps, rest) ← pieces? cs
      return (.char c :: ps, rest)
  | [] => none

/-- Whether a unit is the first half of a pair. -/
def isLeading (n : Nat) : Bool := 0xD800 ≤ n && n < 0xDC00

/-- Whether a unit is the second half of a pair. -/
def isTrailing (n : Nat) : Bool := 0xDC00 ≤ n && n < 0xE000

/-- The character of a pair of units. -/
def paired (leading trailing : Nat) : Char :=
  .ofNat (0x10000 + (leading - 0xD800) * 0x400 + (trailing - 0xDC00))

/-- The characters that pieces stand for, unless a surrogate unit has no partner. -/
def characters? : List Piece → Option (List Char)
  | [] => some []
  | .char c :: ps => (characters? ps).map (c :: ·)
  | .unit m :: .unit n :: ps =>
    if isLeading m && isTrailing n then (characters? ps).map (paired m n :: ·)
    else if isLeading m || isTrailing m then none
    else (characters? (.unit n :: ps)).map (.ofNat m :: ·)
  | .unit n :: ps =>
    if isLeading n || isTrailing n then none else (characters? ps).map (.ofNat n :: ·)

/-- The text of a string that is read up to its closing quote, `none` inside if it is no text, and
what follows the quote. -/
def string? (cs : List Char) : Option (Option String × List Char) := do
  let (ps, rest) ← pieces? cs
  return ((characters? ps).map String.ofList, rest)

/-- How a character is written inside a string: quotes, backslashes and control characters are
escaped, everything else stands as it is. -/
def escape (c : Char) : List Char :=
  if c = '"' then ['\\', '"']
  else if c = '\\' then ['\\', '\\']
  else if c = '\x08' then ['\\', 'b']
  else if c = '\x0c' then ['\\', 'f']
  else if c = '\n' then ['\\', 'n']
  else if c = '\r' then ['\\', 'r']
  else if c = '\t' then ['\\', 't']
  else if c < ' ' then
    ['\\', 'u', '0', '0', Nat.digitChar (c.toNat / 16), Nat.digitChar (c.toNat % 16)]
  else [c]

/-- How a text is written, with its quotes. -/
def quote (s : String) : List Char := '"' :: s.toList.flatMap escape ++ ['"']

theorem length_lt_of_pieces? {cs rest : List Char} {ps : List Piece}
    (h : pieces? cs = some (ps, rest)) : rest.length < cs.length := by
  fun_induction pieces? cs generalizing ps rest with
  | case1 => simp at h; simp [← h.2]
  | case2 a b c d cs ih =>
    simp only [Option.bind_eq_bind, Option.bind_eq_some_iff] at h
    obtain ⟨_, _, ⟨_, _⟩, hcs, h⟩ := h
    have := ih hcs
    simp at h; simp [← h.2]; omega
  | case3 e cs _ ih =>
    simp only [Option.bind_eq_bind, Option.bind_eq_some_iff] at h
    obtain ⟨_, _, ⟨_, _⟩, hcs, h⟩ := h
    have := ih hcs
    simp at h; simp [← h.2]; omega
  | case4 c cs _ _ hc => simp at h
  | case5 c cs _ _ _ hc ih =>
    simp only [Option.bind_eq_bind, Option.bind_eq_some_iff] at h
    obtain ⟨⟨_, _⟩, hcs, h⟩ := h
    have := ih hcs
    simp at h; simp [← h.2]; omega
  | case6 => simp at h

theorem length_lt_of_string? {cs rest : List Char} {s : Option String}
    (h : string? cs = some (s, rest)) : rest.length < cs.length := by
  simp only [string?, Option.bind_eq_bind, Option.bind_eq_some_iff] at h
  obtain ⟨⟨ps, rest'⟩, hp, h⟩ := h
  simp at h
  obtain ⟨_, rfl⟩ := h
  exact length_lt_of_pieces? hp

end RelationAlgebra.Json
