import Bracketing.Document.Datum

/-!
# Tables

The tables of a TOML file while it is read. A table that is only on the way to another may still be opened by a header,
a table that has been opened may not be opened again, and no key is set twice.
-/

namespace Bracketing.Config.Toml

open Bracketing.Document

/-- What is stored under a key. -/
inductive Item where
  | value (d : Datum)
  /-- A table, and whether a header has opened it. -/
  | table (opened : Bool) (entries : List (String × Item))
  /-- A list of tables, of which the last comes first. -/
  | tables (items : List (List (String × Item)))
  deriving Inhabited

/-- The entries of a table. -/
abbrev Table := List (String × Item)

namespace Table

/-- The entries with an item under a key: in its place, or last if the key is new. -/
def put (t : Table) (key : String) (i : Item) : Table :=
  match t with
  | [] => [(key, i)]
  | e :: rest => if e.1 = key then (key, i) :: rest else e :: put rest key i

/-- Changes what is stored under a path of keys. Tables on the way are made as they are needed; of a list of tables the
last one is meant. -/
def alter (f : Option Item → Option Item) : List String → Table → Option Table
  | [], _ => none
  | [key], t => (f (t.lookup key)).map (put t key)
  | key :: rest, t =>
    match t.lookup key with
    | none => (alter f rest []).map fun inner => put t key (.table false inner)
    | some (.table opened inner) => (alter f rest inner).map fun inner => put t key (.table opened inner)
    | some (.tables (last :: others)) => (alter f rest last).map fun last => put t key (.tables (last :: others))
    | some _ => none

/-- Sets a key that has not been set. -/
def set (d : Datum) : Option Item → Option Item
  | none => some (.value d)
  | some _ => none

/-- Opens a table. -/
def openTable : Option Item → Option Item
  | none => some (.table true [])
  | some (.table false entries) => some (.table true entries)
  | some _ => none

/-- Opens one more table of a list. -/
def openNext : Option Item → Option Item
  | none => some (.tables [[]])
  | some (.tables items) => some (.tables ([] :: items))
  | some _ => none

mutual

/-- What an item says. -/
def itemDatum : Item → Datum
  | .value d => d
  | .table _ entries => .mapping (entryData entries)
  | .tables items => .list (tableData items).reverse

/-- What the entries of a table say. -/
def entryData : List (String × Item) → List (String × Datum)
  | [] => []
  | (k, i) :: rest => (k, itemDatum i) :: entryData rest

/-- What the tables of a list say. -/
def tableData : List (List (String × Item)) → List Datum
  | [] => []
  | t :: rest => .mapping (entryData t) :: tableData rest

end

/-- What a table says. -/
def datum (t : Table) : Datum := .mapping (entryData t)

end Table

end Bracketing.Config.Toml
