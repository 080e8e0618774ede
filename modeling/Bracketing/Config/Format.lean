import Bracketing.Config.Dotenv
import Bracketing.Config.Json
import Bracketing.Config.Toml.Reader
import Bracketing.Config.Yaml.Reader

/-!
# Formats of configuration files

A configuration file is written in a format that its extension tells. All formats give the same thing: settings by
their names.
-/

namespace Bracketing.Config

open Bracketing.Document

/-- How a configuration file is written. -/
inductive Format where
  | yaml
  | json
  | toml
  | dotenv
  deriving DecidableEq, Repr

namespace Format

/-- The format of an extension. -/
def ofExtension? : String → Option Format
  | "yaml" | "yml" => some .yaml
  | "json" => some .json
  | "toml" => some .toml
  | "dotenv" | "env" => some .dotenv
  | _ => none

/-- What a file of the format says, or nothing if it is malformed. -/
def datum? : Format → String → Option Datum
  | .yaml => Yaml.read?
  | .json => Json.read?
  | .toml => Toml.read?
  | .dotenv => Dotenv.read?

/-- The settings in a file of the format; a file may say nothing, but it must not say anything else. -/
def settings? (f : Format) (text : String) : Option (List (String × Datum)) :=
  match f.datum? text with
  | some (.mapping es) => some es
  | some .null => some []
  | _ => none

end Format

end Bracketing.Config
