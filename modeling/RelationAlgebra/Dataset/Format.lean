import RelationAlgebra.Dataset
import RelationAlgebra.Json.Record

/-!
# Datasets in JSON

How atoms, tuples, properties, declarations and datasets are written in JSON and read back. Reading
allows more than writing produces: records may be arrays, fields that have a default may be missing,
and members that are no fields are skipped, though not in a set of properties.
-/

namespace RelationAlgebra

namespace Atom

/-- Reads an atom: a truth value, a 64-bit integer or a text. -/
def ofJson? : Json → Option Atom
  | .bool b => some (bool b)
  | .int i => (Decimal.int64? i).map int
  | .string s => s.map text
  | _ => none

/-- The JSON of an atom. -/
def toJson : Atom → Json
  | bool b => .bool b
  | int i => .int i.toInt
  | text s => .text s

end Atom

namespace Tuple

/-- Reads a tuple: an array of atoms. -/
def ofJson? : Json → Option Tuple := Json.list? Atom.ofJson?

/-- The JSON of a tuple. -/
def toJson (t : Tuple) : Json := .array (t.map Atom.toJson)

end Tuple

namespace Entry

/-- Reads an entry: an array is a row and anything else an atom. -/
def ofJson? : Json → Option Entry
  | .array items => (Tuple.ofJson? (.array items)).map row
  | v => (Atom.ofJson? v).map bare

/-- The JSON of an entry. -/
def toJson : Entry → Json
  | row atoms => Tuple.toJson atoms
  | bare atom => atom.toJson

end Entry

namespace Property

/-- Reads a property: its name, or an object with its name as the only key and null as the value. -/
def ofJson? : Json → Option Property
  | .string s => s.bind ofName?
  | .object [(key, .null)] => key.bind ofName?
  | _ => none

/-- The JSON of a property. -/
def toJson (p : Property) : Json := .text p.name

end Property

namespace PropertySet

/-- Reads a set of properties: a closed record of truth values, false where missing. -/
def ofJson? (v : Json) : Option PropertySet := do
  let given ← v.record? (Property.all.map Property.name) true
  let flag (p : Property) := Json.field? given p.name Json.bool? (some false)
  return {
    reflexive := ← flag .reflexive
    irreflexive := ← flag .irreflexive
    symmetric := ← flag .symmetric
    asymmetric := ← flag .asymmetric
    transitive := ← flag .transitive }

/-- The JSON of a set of properties. -/
def toJson (ps : PropertySet) : Json :=
  .record (Property.all.map fun p => (p.name, .bool (ps.declares p)))

end PropertySet

namespace Declaration

/-- Arities have 64 bits: they are below this bound. -/
def arityBound : Nat := 18446744073709551616

/-- Reads a declaration. Name and arity must be given. -/
def ofJson? (v : Json) : Option Declaration := do
  let given ← v.record? ["name", "arity", "properties", "tuples"] false
  return {
    name := ← Json.field? given "name" Json.text? none
    arity := ← Json.field? given "arity" (Json.natural? arityBound) none
    properties := ← Json.field? given "properties" PropertySet.ofJson? (some {})
    entries := ← Json.field? given "tuples" (Json.list? Entry.ofJson?) (some []) }

/-- The JSON of a declaration. Properties are written only if there are any. -/
def toJson (d : Declaration) : Json :=
  let properties := if d.properties.isEmpty then [] else [("properties", d.properties.toJson)]
  .record ([("name", .text d.name), ("arity", .int d.arity)] ++ properties ++
    [("tuples", .array (d.entries.map Entry.toJson))])

end Declaration

namespace Dataset

/-- Reads a dataset. -/
def ofJson? (v : Json) : Option Dataset := do
  let given ← v.record? ["relations"] false
  return { relations := ← Json.field? given "relations" (Json.list? Declaration.ofJson?) (some []) }

/-- The JSON of a dataset. -/
def toJson (d : Dataset) : Json :=
  .record [("relations", .array (d.relations.map Declaration.toJson))]

/-- The dataset that a text of JSON writes. -/
def parse? (text : String) : Option Dataset := (Json.parse? text).bind ofJson?

/-- The compact text of a dataset. -/
def write (d : Dataset) : String := d.toJson.write

end Dataset

end RelationAlgebra
