import Bracketing.Entries
import Bracketing.Tree.Value

/-!
# Records

A record maps names to values and remembers the order in which the names were first set. Setting a name again replaces
its value and leaves its place.

* **Order** (`keys_set`): setting a new name puts it last, setting a known one changes no key.
* **Content** (`get?_set_self`, `get?_set_other`): the last value set under a name is the one found.
-/

namespace Bracketing.Tree

/-- Names with their values, in the order in which the names were first set. -/
structure Record where
  entries : List (String × Value) := []
  /-- No name has two entries. -/
  distinct : (entries.map Prod.fst).Nodup := by exact List.nodup_nil
  deriving DecidableEq, Repr

namespace Record

instance : Inhabited Record := ⟨{}⟩

/-- The names, in the order in which they were first set. -/
def keys (r : Record) : List String := r.entries.map Prod.fst

/-- The value under a name, if it has been set. -/
def get? (r : Record) (k : String) : Option Value := r.entries.lookup k

/-- The value under a name; a name that has not been set holds nothing. -/
def get (r : Record) (k : String) : Value := (r.get? k).getD .null

/-- The name has been set, be it to nothing. -/
def has (r : Record) (k : String) : Bool := (r.get? k).isSome

/-- The record with `v` under `k`. -/
def set (r : Record) (k : String) (v : Value) : Record := ⟨putEntry k v r.entries, nodup_putEntry r.distinct⟩

/-- The record that arises by setting the given entries from left to right. -/
def ofEntries (es : List (String × Value)) : Record :=
  es.foldl (fun r e => r.set e.1 e.2) {}

/-! ## Laws -/

/-- A known name keeps its place, a new one comes last. -/
theorem keys_set (r : Record) (k : String) (v : Value) :
    (r.set k v).keys = if k ∈ r.keys then r.keys else r.keys ++ [k] :=
  map_fst_putEntry k v r.entries

/-- The value just set is found. -/
theorem get?_set_self (r : Record) (k : String) (v : Value) : (r.set k v).get? k = some v := by
  simp [get?, set, lookup_putEntry]

/-- Setting one name leaves every other as it was. -/
theorem get?_set_other (r : Record) {k k' : String} (v : Value) (h : k' ≠ k) :
    (r.set k v).get? k' = r.get? k' := by
  simp [get?, set, lookup_putEntry, h]

end Record

end Bracketing.Tree
