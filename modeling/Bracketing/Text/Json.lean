import Bracketing.Text.Quoted

/-!
# JSON text

A JSON value whose numbers are integers, and its two layouts: on one line (`Json.compact`) and with every member on a
line of its own, indented by two blanks a level (`Json.indented`). Strings escape the characters that matter inside
HTML and script text as well.
-/

namespace Bracketing.Text

/-- A JSON value; numbers are integers, and members keep their order. -/
inductive Json where
  | null
  | bool (b : Bool)
  | int (i : Int)
  | str (s : String)
  | arr (items : List Json)
  | obj (members : List (String × Json))
  deriving Inhabited

namespace Json

/-- One character inside a JSON string. -/
def escapeChar (c : Char) : String :=
  match c with
  | '"' => "\\\""
  | '\\' => "\\\\"
  | '\n' => "\\n"
  | '\r' => "\\r"
  | '\t' => "\\t"
  | c =>
    if c.toNat = 8 then "\\b"
    else if c.toNat = 12 then "\\f"
    else if c.toNat < 0x20 || c = '<' || c = '>' || c = '&' || c.toNat = 0x2028 || c.toNat = 0x2029 then
      "\\u" ++ hexDigits 4 c.toNat
    else String.singleton c

/-- A JSON string with its quotes. -/
def quoteText (s : String) : String :=
  "\"" ++ String.join (s.toList.map escapeChar) ++ "\""

mutual

/-- The value on one line without blanks. -/
def compact : Json → String
  | .null => "null"
  | .bool b => if b then "true" else "false"
  | .int i => toString i
  | .str s => quoteText s
  | .arr items => "[" ++ ",".intercalate (compactItems items) ++ "]"
  | .obj members => "\x7b" ++ ",".intercalate (compactMembers members) ++ "\x7d"

/-- The items of an array, each on one line. -/
def compactItems : List Json → List String
  | [] => []
  | v :: rest => compact v :: compactItems rest

/-- The members of an object, each on one line. -/
def compactMembers : List (String × Json) → List String
  | [] => []
  | (k, v) :: rest => (quoteText k ++ ":" ++ compact v) :: compactMembers rest

end

/-- The members of an array or object between its brackets, each on its own line one level deeper than `pad`. -/
def block (opening closing pad : String) (members : List String) : String :=
  if members.isEmpty then opening ++ closing
  else
    opening ++ "\n" ++ ",\n".intercalate (members.map (pad ++ "  " ++ ·)) ++ "\n" ++ pad ++ closing

mutual

/-- The value with every member on its own line; `pad` is the indentation of the line the value starts on. -/
def indentedAt (pad : String) : Json → String
  | .null => "null"
  | .bool b => if b then "true" else "false"
  | .int i => toString i
  | .str s => quoteText s
  | .arr items => block "[" "]" pad (indentedItems (pad ++ "  ") items)
  | .obj members => block "\x7b" "\x7d" pad (indentedMembers (pad ++ "  ") members)

/-- The items of an array at indentation `pad`. -/
def indentedItems (pad : String) : List Json → List String
  | [] => []
  | v :: rest => indentedAt pad v :: indentedItems pad rest

/-- The members of an object at indentation `pad`. -/
def indentedMembers (pad : String) : List (String × Json) → List String
  | [] => []
  | (k, v) :: rest => (quoteText k ++ ": " ++ indentedAt pad v) :: indentedMembers pad rest

end

/-- The value with every member on its own line. -/
def indented (v : Json) : String := indentedAt "" v

end Json

end Bracketing.Text
