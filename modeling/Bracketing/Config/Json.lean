import Bracketing.Document.Datum
import Bracketing.Text.JsonValue

/-!
# Configuration files in JSON

The values of a JSON file, where every number is a floating-point number. A number that is out of range makes the file
malformed.
-/

namespace Bracketing.Config.Json

open Bracketing.Document Bracketing.Number Bracketing.Text

mutual

/-- What a JSON value says. -/
def datum? : JsonValue → Option Datum
  | .null => some .null
  | .bool b => some (.bool b)
  | .number spelling => (Numeral.decimal? spelling.toList).map .float
  | .str s => some (.str s)
  | .arr items => (data? items).map .list
  | .obj members => (entries? members).map .mapping

/-- What the items of an array say. -/
def data? : List JsonValue → Option (List Datum)
  | [] => some []
  | v :: rest =>
    match datum? v, data? rest with
    | some d, some ds => some (d :: ds)
    | _, _ => none

/-- What the members of an object say. -/
def entries? : List (String × JsonValue) → Option (List (String × Datum))
  | [] => some []
  | (k, v) :: rest =>
    match datum? v, entries? rest with
    | some d, some es => some ((k, d) :: es)
    | _, _ => none

end

/-- What a configuration file says, or nothing if it is malformed. -/
def read? (s : String) : Option Datum := (JsonValue.parse? s).bind datum?

end Bracketing.Config.Json
