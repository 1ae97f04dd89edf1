import RelationAlgebra.Json.Token

/-!
# JSON

The values of JSON, as far as datasets need them, their one compact form, and a reader for every
form. Members of an object keep their order and may repeat.

The reader goes through the tokens once, with the arrays and objects that are still open on a stack.
Nesting is not limited.
-/

namespace RelationAlgebra

/-- A value of JSON. -/
inductive Json where
  | null
  | bool (b : Bool)
  | int (i : Int)
  /-- A number that is not written as an integer. -/
  | fraction
  /-- A string, `none` if it is no text. -/
  | string (s : Option String)
  | array (items : List Json)
  | object (members : List (Option String × Json))
deriving Repr

namespace Json

/-- An array or object that is still open, with what it holds so far, last first. -/
inductive Frame where
  | items (before : List Json)
  | members (before : List (Option String × Json)) (key : Option String)

mutual

/-- Reads tokens that begin with a value, under open arrays and objects. -/
def value? (stack : List Frame) : List Token → Option Json
  | .null :: ts => continue? stack .null ts
  | .bool b :: ts => continue? stack (.bool b) ts
  | .int i :: ts => continue? stack (.int i) ts
  | .fraction :: ts => continue? stack .fraction ts
  | .string s :: ts => continue? stack (.string s) ts
  | .openArray :: .closeArray :: ts => continue? stack (.array []) ts
  | .openArray :: ts => value? (.items [] :: stack) ts
  | .openObject :: .closeObject :: ts => continue? stack (.object []) ts
  | .openObject :: .string key :: .colon :: ts => value? (.members [] key :: stack) ts
  | _ => none

/-- Reads tokens that follow the value `v`, under open arrays and objects. -/
def continue? (stack : List Frame) (v : Json) (tokens : List Token) : Option Json :=
  match stack, tokens with
  | [], [] => some v
  | .items before :: stack, .comma :: ts => value? (.items (v :: before) :: stack) ts
  | .items before :: stack, .closeArray :: ts =>
    continue? stack (.array (v :: before).reverse) ts
  | .members before key :: stack, .comma :: .string next :: .colon :: ts =>
    value? (.members ((key, v) :: before) next :: stack) ts
  | .members before key :: stack, .closeObject :: ts =>
    continue? stack (.object ((key, v) :: before).reverse) ts
  | _, _ => none

end

/-- The value that a row of tokens writes. -/
def ofTokens? (tokens : List Token) : Option Json := value? [] tokens

/-- The value that a text writes. -/
def parse? (text : String) : Option Json := (tokens? text.toList).bind ofTokens?

mutual

/-- The tokens that write a value. -/
def tokens : Json → List Token
  | .null => [.null]
  | .bool b => [.bool b]
  | .int i => [.int i]
  | .fraction => [.fraction]
  | .string s => [.string s]
  | .array items => .openArray :: (itemTokens items ++ [.closeArray])
  | .object members => .openObject :: (memberTokens members ++ [.closeObject])

/-- The tokens of the items of an array, with commas between them. -/
def itemTokens : List Json → List Token
  | [] => []
  | [item] => item.tokens
  | item :: items => item.tokens ++ .comma :: itemTokens items

/-- The tokens of one member of an object. -/
def memberToken : Option String × Json → List Token
  | (key, v) => .string key :: .colon :: v.tokens

/-- The tokens of the members of an object, with commas between them. -/
def memberTokens : List (Option String × Json) → List Token
  | [] => []
  | [m] => memberToken m
  | m :: members => memberToken m ++ .comma :: memberTokens members

end

/-- The compact text of a value. -/
def write (v : Json) : String := String.ofList (v.tokens.flatMap Token.write)

/-- The string of a text. -/
def text (s : String) : Json := .string (some s)

/-- The object of the listed members. -/
def record (members : List (String × Json)) : Json :=
  .object (members.map fun (key, v) => (some key, v))

end Json

end RelationAlgebra
