import RelationAlgebra.CommandLine.Run

/-!
# The program

Reads the dataset that the arguments name and prints what the command gives.
-/

namespace RelationAlgebra.CommandLine

/-- The content of a file, if it can be read as text. -/
def readText (path : String) : IO (Option String) := do
  match ← (IO.FS.readBinFile path).toBaseIO with
  | .ok bytes => return String.fromUTF8? bytes
  | .error _ => return none

end RelationAlgebra.CommandLine

open RelationAlgebra CommandLine in
/-- The entry point. -/
def main (args : List String) : IO UInt32 := do
  let path := (parse? args).bind Invocation.dataset
  let content ← match path with
    | some path => readText path
    | none => pure none
  let outcome := run (fun _ => content) args
  (← IO.getStdout).putStr outcome.stdout
  (← IO.getStderr).putStr outcome.stderr
  return outcome.code.toUInt32
