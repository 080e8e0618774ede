import Bracketing.Command.Select
import Bracketing.Command.Settings
import Bracketing.Document.Load
import Bracketing.Report.Listing
import Bracketing.Tree.Validate

/-!
# Running a command

A command reads a document, checks the tree unless told not to, and prints a listing of it. `run` gives what is printed
and what went wrong; arguments are judged first, then the settings, the document, the tree, and last the format asked
for.
-/

namespace Bracketing.Command

open Bracketing.Document Bracketing.Text Bracketing.Tree

/-- Why a command fails. -/
inductive CommandError where
  | unknownCommand (word : String)
  | flag (e : FlagError)
  /-- A command has one operand, the document. -/
  | operandCount (count : Nat)
  | settings (e : SettingsError)
  | file (path : String) (e : FileError)
  | load (path : String) (e : LoadError)
  | invalid (path : String) (problems : List Problem)
  | noTokens (path : String)
  | unknownFormat (format : String)
  | stopped (s : Stop)
  deriving DecidableEq, Repr

/-- The message of a stop. -/
def stopMessage : Stop → String
  | .broken e => e.message
  | .missing => "missing node"
  | .raised message => message
  | .endless => "endless tree"

/-- The message of a command that fails. -/
def CommandError.message : CommandError → String
  | unknownCommand word => Select.unknownMessage word
  | flag e => e.message
  | operandCount count => "accepts 1 arg(s), received " ++ toString count
  | settings e => e.message
  | file path e => e.message path
  | load path e => path ++ ": " ++ e.message
  | invalid path problems => path ++ ": invalid tree: " ++ errorList (problems.map Problem.message)
  | noTokens path => path ++ ": no token stream attached"
  | unknownFormat format => "unknown output format " ++ quote format
  | stopped s => stopMessage s

/-- The command fails because a document or a configuration file cannot be decoded. -/
def CommandError.isDecoding : CommandError → Bool
  | load _ .malformed | settings .malformed => true
  | _ => false

/-- What a command prints, and why it failed if it did. -/
structure Result where
  out : String
  error : Option CommandError := none
  deriving DecidableEq, Repr

/-- How the program is used. -/
def usage : String :=
  "Usage:\n  fastpath parens [--all] [--expression-context] [-o text|json] <file>\n  fastpath tokens <file>\n\n" ++
    "Flags:\n  --config <file>\n  --log-level <level>\n  --no-color\n  --no-validate\n"

/-- The version of the program. -/
def version : String := "fastpath version dev (unknown, unknown)\n"

/-- The tree of the document at a path, checked unless the settings forbid it. -/
def tree (a : Arguments) (s : Surroundings) (config : List (String × Datum)) (path : String) :
    Except CommandError (NodeId × Heap) := do
  let text ← (s.folder.read path).mapError (.file path)
  let (root, h) ← (loadText s.readings {} text).mapError (.load path)
  if Settings.isOn a s config "no-validate" "FASTPATH_NO_VALIDATE" then return (root, h)
  match ← (h.validate .standard (some root)).mapError .stopped with
  | [] => return (root, h)
  | problems => .error (.invalid path problems)

/-- The listing of parentheses in a format. -/
def format (form : String) (entries : List Listing.Entry) : Except CommandError String :=
  match form.toLower with
  | "json" => .ok ((Json.arr (entries.map Listing.Entry.json)).indented ++ "\n")
  | "" | "text" => .ok (String.join (entries.map Listing.Entry.line))
  | _ => .error (.unknownFormat form)

/-- Runs a command on its one operand. -/
def perform (v : Verb) (a : Arguments) (s : Surroundings) (path : String) : Except CommandError Result := do
  let config ← (Settings.configured a s).mapError .settings
  let (root, h) ← tree a s config path
  match v with
  | .overview => return { out := usage }
  | .parens =>
    let entries ← (Listing.parens h root (a.isOn "all") (a.isOn "expression-context")).mapError .stopped
    return { out := ← format ((a.value? "output").getD "text") entries }
  | .tokens =>
    if ((h.location? root).bind (·.range)).isNone then .error (.noTokens path)
    let (lines, stop) := Listing.tokens h root
    return { out := String.join lines, error := stop.map .stopped }

/-- Runs the command that the arguments name. -/
def execute (args : List String) (s : Surroundings) : Except CommandError Result := do
  let (v, args) ← (select args).mapError .unknownCommand
  let a ← (Flag.parse v.flags args).mapError .flag
  if a.isOn "help" then return { out := usage }
  else if a.isOn "version" then return { out := version }
  else if v = .overview then return { out := usage }
  else
    match a.operands with
    | [path] => perform v a s path
    | operands => .error (.operandCount operands.length)

/-- What the program prints for its arguments, and why it failed if it did. -/
def run (args : List String) (s : Surroundings) : Result :=
  match execute args s with
  | .ok r => r
  | .error e => { out := "", error := some e }

/-- The files that a run may read. -/
def readPaths (args : List String) (s : Surroundings) : List String :=
  match select args with
  | .error _ => []
  | .ok (v, args) =>
    match Flag.parse v.flags args with
    | .error _ => []
    | .ok a => a.operands ++ (match Settings.namedPath? a s with
      | some path => [path]
      | none => Settings.defaultPaths s)

end Bracketing.Command
