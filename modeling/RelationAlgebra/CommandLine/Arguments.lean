import RelationAlgebra.Combinator
import RelationAlgebra.Text.Split

/-!
# Arguments of the command line

What the arguments of the command line ask for. A word is an argument that does not begin with a
dash, or the dash alone. Every option has a long name and a value, which follows behind an equals
sign or as the next argument. Behind `--` no argument is an option any more.

The first word names the command. The options `--dataset` and `--log-level` may stand before it or
behind it, at most once on either side, and behind it counts.
-/

namespace RelationAlgebra.CommandLine

/-- A command and what it works on. -/
inductive Command where
  /-- Lists the relations. -/
  | list
  /-- Shows the rows of a relation. -/
  | show (relation : String)
  /-- Asks whether a relation accepts a tuple, given as words. -/
  | test (relation : String) (words : List String)
  /-- Derives a relation, and shows its rows or which candidates it accepts. -/
  | eval (combinator : Combinator) (relations candidates : List String)
  /-- Walks through the family example. -/
  | demo
deriving DecidableEq, Repr

/-- What the arguments ask for. -/
structure Invocation where
  /-- The path of the dataset, if one is named. -/
  dataset : Option String
  command : Command
deriving DecidableEq, Repr

/-! ## Words and options -/

/-- An argument, or two that belong together. -/
inductive Item where
  | option (name value : String)
  /-- A word. -/
  | word (s : String)
  /-- Any argument behind `--`. -/
  | verbatim (s : String)
deriving DecidableEq, Repr

/-- The name of a long option and the value behind an equals sign, if there is one. -/
def longOption (cs : List Char) : String × Option String :=
  (String.ofList (cs.takeWhile (· ≠ '=')),
    match cs.dropWhile (· ≠ '=') with
    | [] => none
    | _ :: value => some (String.ofList value))

/-- Whether an argument is a word. -/
def isWord (s : String) : Bool :=
  match s.toList with
  | ['-'] => true
  | '-' :: _ => false
  | _ => true

/-- Splits arguments into options and words. Short options there are none. -/
def items? : List String → Option (List Item)
  | [] => some []
  | "--" :: rest => some (rest.map .verbatim)
  | arg :: rest =>
    match arg.toList with
    | '-' :: '-' :: cs =>
      match longOption cs, rest with
      | (name, some value), rest => (items? rest).map (.option name value :: ·)
      | (name, none), value :: rest =>
        if isWord value then (items? rest).map (.option name value :: ·) else none
      | (_, none), [] => none
    | _ => if isWord arg then (items? rest).map (.word arg :: ·) else none

/-! ## Options -/

/-- The values of an option. -/
def valuesOf (name : String) (items : List Item) : List String :=
  items.filterMap fun
    | .option n value => if n = name then some value else none
    | _ => none

/-- The words, and the arguments behind `--`. -/
def wordsOf (items : List Item) : List String :=
  items.filterMap fun
    | .option _ _ => none
    | .word s | .verbatim s => some s

/-- Whether all options have one of the listed names. -/
def areOptionsAmong (names : List String) (items : List Item) : Bool :=
  items.all fun
    | .option name _ => names.contains name
    | _ => true

/-- The path of the dataset that the options on one side of the command name. Neither option of that
side may be given twice, and the path may not be empty. -/
def dataset? (items : List Item) : Option (Option String) :=
  if (valuesOf "log-level" items).length ≤ 1 then
    match valuesOf "dataset" items with
    | [] => some none
    | [path] => if path.isEmpty then none else some (some path)
    | _ => none
  else none

/-! ## Commands -/

/-- The command of a name, with the items behind it. -/
def command? (name : String) (items : List Item) : Option Command :=
  match name, wordsOf items with
  | "list", [] => some .list
  | "show", [relation] => some (.show relation)
  | "test", relation :: word :: words => some (.test relation (word :: words))
  | "eval", combinator :: relation :: relations => do
    let combinator ← Combinator.ofName? combinator
    return .eval combinator (relation :: relations)
      ((valuesOf "candidates" items).flatMap (Text.splitAt ','))
  | "demo", [] => some .demo
  | _, _ => none

/-- The names of the options that may stand behind a command. -/
def optionNames (command : String) : List String :=
  ["dataset", "log-level"] ++ if command = "eval" then ["candidates"] else []

/-- Whether an item is an option. -/
def Item.isOption : Item → Bool
  | option .. => true
  | _ => false

/-- What arguments ask for, if they ask for anything. -/
def parse? (args : List String) : Option Invocation := do
  let items ← items? args
  let before := items.takeWhile Item.isOption
  match items.dropWhile Item.isOption with
  | .word name :: behind =>
    guard (areOptionsAmong ["dataset", "log-level"] before)
    guard (areOptionsAmong (optionNames name) behind)
    let outer ← dataset? before
    let inner ← dataset? behind
    let command ← command? name behind
    return { dataset := inner <|> outer, command }
  | _ => none

end RelationAlgebra.CommandLine
