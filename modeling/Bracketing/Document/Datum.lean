import Bracketing.Entries
import Bracketing.Number.Decimal

/-!
# Decoded documents

What a document says before it is read as a tree: nothing, truth values, integers, floating-point numbers, texts, lists
and mappings. An integer without a minus sign fills an unsigned word, one with a minus sign a signed word. A mapping may
hold a key more than once, for keys that are written in different ways may be the same in the end; `Datum.settled` keeps
the last value of each.
-/

namespace Bracketing.Document

open Bracketing.Number

/-- A decoded document or a part of one. -/
inductive Datum where
  | null
  | bool (b : Bool)
  | unsigned (n : UInt64)
  | signed (i : Int64)
  | float (x : Double)
  | str (s : String)
  | list (items : List Datum)
  | mapping (entries : List (String × Datum))
  deriving Inhabited, Repr

namespace Datum

/-- The name of the type of a datum, as messages give it. -/
def typeName : Datum → String
  | null => "<nil>"
  | bool _ => "bool"
  | unsigned _ => "uint64"
  | signed _ => "int64"
  | float _ => "float64"
  | str _ => "string"
  | list _ => "[]interface {}"
  | mapping _ => "yaml.MapSlice"

/-- The entries of a mapping. -/
def entries? : Datum → Option (List (String × Datum))
  | mapping es => some es
  | _ => none

/-- The value of a key; the last one if the key occurs again. -/
def find? (entries : List (String × Datum)) (key : String) : Option Datum := entries.reverse.lookup key

mutual

/-- The datum where every mapping holds a key once: in its first place, with its last value. -/
def settled : Datum → Datum
  | list items => .list (settledItems items)
  | mapping entries => .mapping (putEntries [] (settledEntries entries))
  | d => d

/-- The items of a list where every mapping holds a key once. -/
def settledItems : List Datum → List Datum
  | [] => []
  | d :: rest => settled d :: settledItems rest

/-- The entries of a mapping with values where every mapping holds a key once. -/
def settledEntries : List (String × Datum) → List (String × Datum)
  | [] => []
  | (k, d) :: rest => (k, settled d) :: settledEntries rest

end

/-- The 64-bit integer that a datum stands for: an integer, which may wrap, or a float without a fraction. -/
def toWord? : Datum → Option Int64
  | unsigned n => some n.toInt64
  | signed i => some i
  | float x =>
    match x.toInt? with
    | some i => if -(twoTo 63 : Int) ≤ i && i < twoTo 63 then some (Int64.ofInt i) else none
    | none => none
  | _ => none

/-- A number as a double. -/
def toDouble? : Datum → Option Double
  | unsigned n => some (Double.ofInt n.toNat)
  | signed i => some (Double.ofInt i.toInt)
  | float x => some x
  | _ => none

mutual

/-- The text of a datum inside a list or mapping. -/
def inner : Datum → String
  | null => "<nil>"
  | bool b => if b then "true" else "false"
  | unsigned n => toString n.toNat
  | signed i => toString i.toInt
  | float x => x.text
  | str s => s
  | list items => "[" ++ " ".intercalate (innerItems items) ++ "]"
  | mapping entries => "[" ++ " ".intercalate (innerEntries entries) ++ "]"

/-- The texts of list items. -/
def innerItems : List Datum → List String
  | [] => []
  | d :: rest => inner d :: innerItems rest

/-- The texts of mapping entries, each between braces. -/
def innerEntries : List (String × Datum) → List String
  | [] => []
  | (k, d) :: rest => ("\x7b" ++ k ++ " " ++ inner d ++ "\x7d") :: innerEntries rest

end

/-- The text of a datum on its own: every number is written as a double. -/
def text (d : Datum) : String :=
  match d.toDouble? with
  | some x => x.text
  | none => d.inner

/-- The text of a datum used as a mapping key. -/
def keyText : Datum → String
  | null => "null"
  | d => d.inner

end Datum

end Bracketing.Document
