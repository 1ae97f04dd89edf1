import RelationAlgebra.Dataset.Format

/-!
# Dataset files

A dataset file is a text of JSON. It can be unreadable, because it is missing or is no text, or
malformed.
-/

namespace RelationAlgebra

/-- Why a dataset file gives no dataset. -/
inductive FileError where
  | unreadable (path : String)
  | malformed (path : String)
deriving DecidableEq, Repr

/-- The wording for a text that writes no dataset. -/
def Dataset.malformedMessage : String := "failed to parse dataset JSON"

namespace FileError

/-- The wording of an error, without its cause. -/
def message : FileError → String
  | unreadable path => s!"failed to read dataset `{path}`"
  | malformed path => s!"in dataset `{path}`"

/-- The wording of an error, with its cause. -/
def fullMessage : FileError → String
  | unreadable path => (unreadable path).message
  | malformed path => s!"{(malformed path).message}: {Dataset.malformedMessage}"

end FileError

/-- The dataset of a file with the given content, which is `none` if it cannot be read as text. -/
def Dataset.ofFile (path : String) (content : Option String) : Except FileError Dataset :=
  match content with
  | none => .error (.unreadable path)
  | some text =>
    match Dataset.parse? text with
    | some d => .ok d
    | none => .error (.malformed path)

end RelationAlgebra
