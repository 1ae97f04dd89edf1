import RelationAlgebra.Json

/-!
# Records in JSON

A record is written as an object, and is read from an object or from the array of its fields in
their declared order, where fields at the end may be missing. An object may hold members that are no
fields, unless the record is closed; no field may be given twice, and every key must be a text.
-/

namespace RelationAlgebra.Json

/-- The fields that are given for a record. -/
def record? (fields : List String) (closed : Bool) : Json → Option (List (String × Json))
  | .array items => if items.length ≤ fields.length then some (fields.zip items) else none
  | .object members => do
    let members ← members.mapM fun (key, v) => key.map fun key => (key, v)
    let known := members.filter fun m => fields.contains m.1
    guard (known.map (·.1)).Nodup
    guard (!closed || known.length == members.length)
    return known
  | _ => none

/-- The decoded value of a field. A missing field has its default value, if there is one. -/
def field? {α : Type} (given : List (String × Json)) (name : String) (decode : Json → Option α)
    (default : Option α) : Option α :=
  match given.lookup name with
  | some v => decode v
  | none => default

/-- The items of an array, each decoded. -/
def list? {α : Type} (decode : Json → Option α) : Json → Option (List α)
  | .array items => items.mapM decode
  | _ => none

/-- A truth value. -/
def bool? : Json → Option Bool
  | .bool b => some b
  | _ => none

/-- A text. -/
def text? : Json → Option String
  | .string s => s
  | _ => none

/-- A natural number below `bound`. -/
def natural? (bound : Nat) : Json → Option Nat
  | .int (.ofNat n) => if n < bound then some n else none
  | _ => none

end RelationAlgebra.Json
