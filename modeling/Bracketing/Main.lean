import Bracketing.Command.Run

/-!
# The program

Reads the environment and the files that a run may need, runs it, and prints the outcome.
-/

namespace Bracketing.Command

/-- The variables of the environment that a run may look at. -/
def environment : IO (List (String × String)) :=
  ["HOME", "FASTPATH_CONFIG", "FASTPATH_NO_VALIDATE"].filterMapM fun name => do
    return (← IO.getEnv name).map (name, ·)

/-- The text of a file, if it can be read. -/
def fileText? (path : String) : IO (Option String) := do
  try return some (← IO.FS.readFile path) catch _ => return none

end Bracketing.Command

open Bracketing.Command in
/-- Runs the command line; a failure is told on the error channel and by the exit code. -/
def main (args : List String) : IO UInt32 := do
  let bare : Surroundings := { folder := {}, environment := ← environment }
  let files ← (readPaths args bare).filterMapM fun path => do
    return (← fileText? path).map (path, ·)
  let r := run args { bare with folder := { files := files } }
  IO.print r.out
  match r.error with
  | none => return 0
  | some e =>
    IO.eprintln e.message
    return 1
