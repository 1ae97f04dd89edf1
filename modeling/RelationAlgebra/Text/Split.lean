/-!
# Splitting at a character

A text is split at every occurrence of a separator, so there is always one part more than there are
separators, and parts may be empty.
-/

namespace RelationAlgebra.Text

/-- The parts of a row of characters between separators. -/
def split (separator : Char) : List Char → List (List Char)
  | [] => [[]]
  | c :: cs =>
    if c = separator then [] :: split separator cs
    else
      match split separator cs with
      | [] => [[c]]
      | part :: parts => (c :: part) :: parts

/-- The parts of a text between separators. -/
def splitAt (separator : Char) (s : String) : List String :=
  (split separator s.toList).map String.ofList

/-- Each part has one separator behind it, but the last. -/
theorem length_split (separator : Char) (cs : List Char) :
    (split separator cs).length = cs.count separator + 1 := by
  induction cs with
  | nil => rfl
  | cons c cs ih =>
    by_cases h : c = separator
    · simp [split, h, ih]
    · cases hs : split separator cs with
      | nil => simp [hs] at ih
      | cons part parts =>
        rw [hs] at ih
        simpa [split, h, hs, List.count_cons_of_ne h] using ih

end RelationAlgebra.Text
