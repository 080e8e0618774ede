import Bracketing.Config.Yaml.Scalar

/-!
# Configuration files as they are written

A node is a value as a file writes it. A value may have a name, by which the file can refer to it later, and a tag, which
says what a scalar stands for. A key `<<` without quotes brings the entries of other mappings along; an entry of the
mapping itself wins over one that is brought along, and an earlier one over a later one.

`Node.datum?` gives what a node stands for.
-/

namespace Bracketing.Config.Yaml

open Bracketing.Document

/-- A value as it is written. -/
inductive Node where
  /-- A scalar, which is bare unless it stands in quotes or keeps its lines. -/
  | scalar (bare : Bool) (text : String)
  | list (items : List Node)
  | mapping (entries : List (Node × Node))
  | tagged (tag : String) (node : Node)
  | named (name : String) (node : Node)
  | reference (name : String)
  deriving Inhabited, Repr

namespace Node

/-- The value that is left out. -/
def empty : Node := scalar true ""

/-- What a scalar with a tag stands for. A tag that is not known makes it a text. -/
def retag? (tag : String) (bare : Bool) (text : String) : Option Datum :=
  match tag, resolve text with
  | "!", d => some (if bare then d else .str text)
  | "!!bool", .bool b => some (.bool b)
  | "!!null", .null => some .null
  | "!!int", .signed i => some (.signed i)
  | "!!int", .unsigned n => some (.unsigned n)
  | "!!float", .float x => some (.float x)
  | "!!float", .signed i => (Datum.signed i).toDouble?.map .float
  | "!!bool", _ | "!!null", _ | "!!int", _ | "!!float", _ => none
  | _, _ => some (.str text)

/-- The names of a file with what they stand for, the latest first. A name has no value yet inside its own node. -/
abbrev Names := List (String × Option Datum)

/-- The text of a key, which has to be a scalar. -/
def keyText? (names : Names) : Node → Option String
  | scalar _ text => some text
  | tagged _ node => keyText? names node
  | named _ node => keyText? names node
  | reference name =>
    match names.lookup name with
    | some (some (.str s)) => some s
    | some (some (.list _)) | some (some (.mapping _)) | some none | none => none
    | some (some d) => some d.inner
  | _ => none

/-- The key brings the entries of other mappings along. -/
def isMerge : Node → Bool
  | scalar bare text => bare && text = "<<"
  | named _ node => isMerge node
  | tagged "!!merge" (scalar _ text) => text = "<<"
  | _ => false

/-- The node is a list that is written in its place. -/
def isList : Node → Bool
  | list _ => true
  | named _ node => isList node
  | tagged _ node => isList node
  | _ => false

/-- The entries that the value of a merging key brings along: those of a mapping, or of the mappings of a list. -/
def brought? (listed : Bool) (d : Datum) : Option (List (String × Datum)) :=
  match d with
  | .mapping es => some es
  | .list items => if listed then (items.mapM Datum.entries?).map List.flatten else none
  | _ => none

/-- Entries with those brought along that have a new key. -/
def withBrought (own brought : List (String × Datum)) : List (String × Datum) :=
  brought.foldl (fun es e => if es.any (·.1 = e.1) then es else es ++ [e]) own

mutual

/-- What a node stands for, and the names after it. A tag applies to scalars. -/
def value (names : Names) (tag : String) : Node → Option (Datum × Names)
  | scalar bare text => (retag? tag bare text).map (·, names)
  | list items => (values names items).map fun (ds, names) => (.list ds, names)
  | mapping entries => (pairs names [] [] [] entries).map fun (es, names) => (.mapping es, names)
  | tagged tag node => value names tag node
  | named name node =>
    (value ((name, none) :: names) tag node).map fun (d, names) => (d, (name, some d) :: names)
  | reference name =>
    match names.lookup name with
    | some (some d) => some (d, names)
    | _ => none

/-- What the items of a list stand for. -/
def values (names : Names) : List Node → Option (List Datum × Names)
  | [] => some ([], names)
  | node :: rest =>
    match value names "!" node with
    | some (d, names) => (values names rest).map fun (ds, names) => (d :: ds, names)
    | none => none

/-- The entries of a mapping after its `own` ones and those `brought` along so far. No key may be written twice. -/
def pairs (names : Names) (keys : List String) (own brought : List (String × Datum)) :
    List (Node × Node) → Option (List (String × Datum) × Names)
  | [] => some (withBrought own brought, names)
  | (k, v) :: rest =>
    match keyText? names k, value names "!" k with
    | some key, some (_, names) =>
      match value names "!" v with
      | some (d, names) =>
        if keys.contains key then none
        else if isMerge k then
          match brought? (isList v) d with
          | some es => pairs names (key :: keys) own (brought ++ es) rest
          | none => none
        else pairs names (key :: keys) (own ++ [(key, d)]) brought rest
      | none => none
    | _, _ => none

end

/-- What a node stands for, or nothing if that is not clear. -/
def datum? (node : Node) : Option Datum := (value [] "!" node).map Prod.fst

end Node

end Bracketing.Config.Yaml
