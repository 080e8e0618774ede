import Bracketing.Path.Accessor
import Bracketing.Path.Tokens
import Bracketing.Path.Traverse
import Bracketing.Verdict.Decide

/-!
# Surveys

A survey walks a tree and notes at every node all that a path can tell about parentheses there. A broken invariant ends
it: the rows noted before stay.
-/

namespace Bracketing

open Bracketing.Tree

namespace Survey

/-- What a path tells at one node. -/
structure Row where
  accessor : String
  label : String
  verdict : Verdict
  /-- The verdict of a caller that knows the node to be inside an expression. -/
  inExpression : Verdict
  mayLead : Bool
  leadsStatement : Bool
  leads : Bool
  hasParens : Bool
  deriving DecidableEq, Repr

/-- What a path tells at its current node. -/
def row (p : Path) (h : Heap) : Except Stop Row := do
  return {
    accessor := Path.accessor p.names
    label := h.label (p.node h)
    verdict := ← p.decide h false
    inExpression := ← p.decide h true
    mayLead := mayLead h (p.node h)
    leadsStatement := ← p.leads h true
    leads := ← p.leads h false
    hasParens := ← p.hasParens h }

end Survey

/-- A walk in progress that notes rows of type `α`. -/
structure Tour (α : Type) where
  heap : Heap
  path : Path
  rows : List α := []

namespace Tour

variable {α : Type}

/-- The path and objects of a tour. -/
def cursor : Cursor (Tour α) where
  heap := Tour.heap
  path := Tour.path
  setPath t p := { t with path := p }
  reserve := 0

/-- The path of a tour can be written and read. -/
theorem cursor_lawful : (cursor : Cursor (Tour α)).Lawful fun _ => True where
  path_setPath _ _ _ := rfl
  heap_setPath _ _ := rfl
  setPath_path _ := rfl
  setPath_setPath _ _ _ := rfl
  valid_setPath _ _ _ := trivial

/-- Notes what `row` gives at the current node. -/
def note (row : Path → Heap → Except Stop (Option α)) : Visit (Tour α) Empty Unit := do
  let t ← Visit.state
  match ← Visit.answer (row t.path t.heap) with
  | some r => Visit.change fun t => { t with rows := t.rows ++ [r] }
  | none => return ()

/-- Walks from a path and notes what `row` gives at every node. -/
def run (h : Heap) (p : Path) (row : Path → Heap → Except Stop (Option α)) : Outcome Empty Unit × Tour α :=
  cursor.walk (note row) { heap := h, path := p }

/-- The stop that ended a tour, if it did not come to its end. -/
def stop? : Outcome Empty Unit → Option Stop
  | .stopped s => some s
  | _ => none

/-- What a report makes of a tour that has ended: its rows, or what stopped it. -/
def conclude (ended : Outcome Empty Unit × Tour α) : Except Stop (List α) :=
  match stop? ended.1 with
  | some s => .error s
  | none => .ok ended.2.rows

/-- The report of a tour: all that `row` gives at the nodes, or what stopped it. -/
def report (h : Heap) (p : Path) (row : Path → Heap → Except Stop (Option α)) : Except Stop (List α) :=
  conclude (run h p row)

end Tour

/-- The rows of a survey, the length of the path afterwards and what ended it early. -/
def survey (h : Heap) (p : Path) : List Survey.Row × Nat × Option Stop :=
  let (out, t) := Tour.run h p fun p h => (Survey.row p h).map some
  (t.rows, t.path.length, Tour.stop? out)

end Bracketing
