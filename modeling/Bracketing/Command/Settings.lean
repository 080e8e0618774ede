import Bracketing.Command.Files
import Bracketing.Command.Flag
import Bracketing.Config.Format
import Bracketing.Document.Load

/-!
# Settings

A setting is given by a flag, by a variable of the environment or in a configuration file, and the first of these that
gives it wins. The configuration file is the one named by the setting `config`; without that, a file of one of the names
in `Settings.defaultNames`, in the working directory or at home, may give settings.
-/

namespace Bracketing.Command

open Bracketing.Config Bracketing.Document Bracketing.Text

/-- What a command depends on besides its arguments: files, the variables of the environment by their names, and the
orders in which the coordinates of positions are read. -/
structure Surroundings where
  folder : Folder
  environment : List (String × String)
  readings : Load.Readings := .byKey

namespace Surroundings

/-- The value of a variable that is not empty. -/
def variableValue? (s : Surroundings) (name : String) : Option String :=
  match s.environment.lookup name with
  | none | some "" => none
  | value => value

end Surroundings

/-- Why the settings cannot be read. -/
inductive SettingsError where
  | unknownExtension (extension : String)
  | file (path : String) (e : FileError)
  /-- There is no reader for files with the extension. -/
  | noReader
  | malformed
  deriving DecidableEq, Repr

/-- The message of settings that cannot be read; of a file that cannot be decoded no more is said. -/
def SettingsError.message : SettingsError → String
  | unknownExtension extension => "config: Unsupported Config Type " ++ quote extension
  | file path e => "config: " ++ e.message path
  | noReader => "config: While parsing config: decoder not found for this format"
  | malformed => "config: decode"

namespace Settings

/-- The extensions of configuration files. -/
def extensions : List String :=
  ["json", "toml", "yaml", "yml", "properties", "props", "prop", "hcl", "tfvars", "dotenv", "env", "ini"]

/-- The names of configuration files that need not be named, the first ones first. -/
def defaultNames : List String := extensions.map (".fastpath." ++ ·) ++ [".fastpath"]

/-- The extension of a path: what follows the last dot of its last component. -/
def extension (path : String) : String :=
  let rev := path.toList.reverse.takeWhile (· ≠ '/')
  if rev.contains '.' then String.ofList (rev.takeWhile (· ≠ '.')).reverse else ""

/-- The configuration file that is asked for by a flag or a variable. -/
def namedPath? (a : Arguments) (s : Surroundings) : Option String :=
  match (a.value? "config").or (s.variableValue? "FASTPATH_CONFIG") with
  | none | some "" => none
  | path => path

/-- The configuration files that are looked for when none is asked for. -/
def defaultPaths (s : Surroundings) : List String :=
  defaultNames ++ match s.variableValue? "HOME" with
    | some home => defaultNames.map (home ++ "/" ++ ·)
    | none => []

/-- The settings in a configuration file. -/
def entries (f : Format) (text : String) : Except SettingsError (List (String × Datum)) :=
  match f.settings? text with
  | some es => .ok es
  | none => .error .malformed

/-- The configured settings. A file that need not be named is taken for one in YAML, whatever its extension. -/
def configured (a : Arguments) (s : Surroundings) : Except SettingsError (List (String × Datum)) :=
  match namedPath? a s with
  | some path =>
    if extensions.contains (extension path) then
      match s.folder.read path, Format.ofExtension? (extension path) with
      | .ok text, some f => entries f text
      | .ok _, none => .error .noReader
      | .error e, _ => .error (.file path e)
    else .error (.unknownExtension (extension path))
  | none =>
    match (defaultPaths s).findSome? fun path => (s.folder.read path).toOption with
    | some text => entries .yaml text
    | none => .ok []

/-- The truth value of a configured setting: a number other than zero is true, and so is a text that spells it. -/
def isTrue : Datum → Bool
  | .bool b => b
  | .str s => (truthValue? s).getD false
  | d =>
    match d.toDouble? with
    | some x => !x.isZero
    | none => false

/-- Whether a switch is on, by its flag, its variable or its configured value, whatever the case of its name there. -/
def isOn (a : Arguments) (s : Surroundings) (config : List (String × Datum)) (name variableName : String) : Bool :=
  match a.switch? name with
  | some b => b
  | none =>
    match s.variableValue? variableName with
    | some value => (truthValue? value).getD false
    | none => ((config.reverse.find? (·.1.toLower = name)).map (isTrue ·.2)).getD false

end Settings

end Bracketing.Command
