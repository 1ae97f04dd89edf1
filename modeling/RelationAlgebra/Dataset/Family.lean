import RelationAlgebra.Dataset

/-!
# The family dataset

Three generations of one family: the dataset that is used where none is named.
-/

namespace RelationAlgebra.Dataset

/-- A row of texts. -/
private def names (row : List String) : Entry := .row (row.map Atom.text)

/-- Who is human, who is whose parent, and who is female. -/
def family : Dataset where
  relations := [
    { name := "is_human"
      arity := 1
      entries :=
        ["piotr", "kita", "ania", "karol", "teresa", "robert", "janina", "henryk", "zdzisław",
          "lucyna"].map fun name => .bare (.text name) },
    { name := "is_parent"
      arity := 2
      properties := { irreflexive := true, asymmetric := true }
      entries := [
        names ["teresa", "piotr"], names ["robert", "piotr"],
        names ["teresa", "kita"], names ["robert", "kita"],
        names ["teresa", "ania"], names ["robert", "ania"],
        names ["teresa", "karol"], names ["robert", "karol"],
        names ["janina", "teresa"], names ["henryk", "teresa"],
        names ["zdzisław", "robert"], names ["lucyna", "robert"]] },
    { name := "is_female"
      arity := 1
      entries :=
        ["ania", "teresa", "janina", "lucyna"].map fun name => .bare (.text name) }]

end RelationAlgebra.Dataset
