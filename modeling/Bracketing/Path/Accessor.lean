import Bracketing.Path.Basic

/-!
# Paths as text

The names of a path written as an accessor: `body[0].expression`. An index stands in brackets, every other name after
a point unless nothing stands before it, and an empty accessor is `$`.
-/

namespace Bracketing

open Bracketing.Tree

namespace Path

/-- The accessor `written` so far, with one more name. -/
def extendAccessor (written : String) : Value → String
  | .index i => written ++ "[" ++ toString i ++ "]"
  | name => (if written = "" then "" else written ++ ".") ++ name.text

/-- The accessor of names from the root to the tip. -/
def accessor (names : List Value) : String :=
  let written := names.foldl extendAccessor ""
  if written = "" then "$" else written

end Path

/-- Where a node starts, as text; a dash if that is not known. -/
def Tree.Heap.startText (h : Heap) : Option NodeId → String
  | some n => if (h.start n).isSet then (h.start n).text else "-"
  | none => "-"

end Bracketing
